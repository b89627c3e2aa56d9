-- SUMMARY: What the handlers read from the body of a request: the bodies that are refused, and those that are read as they were meant.
import Sxp.Controller.Users

/-!
# Credentials

The handlers cut the texts out of the body at every separator. A text that holds a separator is
cut short, or shifts the fields behind it, unless one of the parts has no value: then the handler
throws. An empty text is refused in this way.
-/

namespace Sxp

namespace Users

/-! ## Reading a body -/

/-- The text holds none of the separators. -/
def Unseparated (t : String) : Prop := '&' ∉ t.toList ∧ '=' ∉ t.toList

instance decidableUnseparated (t : String) : Decidable (Unseparated t) :=
  inferInstanceAs (Decidable (_ ∧ _))

/-- One of the parts that the handlers read has no value, so that reading the body throws. -/
def Refused (fields : List (String × String)) : Prop :=
  ∃ i < fields.length, ∀ p ∈ ((form fields).toList.splitOn '&')[i]?, Split.NoValue '=' p

instance decidableRefused (fields : List (String × String)) : Decidable (Refused fields) :=
  inferInstanceAs (Decidable (∃ i < _, ∀ p ∈ _, Split.NoValue '=' p))

/-- The text can be sent and is read back. -/
def Sendable (t : String) : Prop := t ≠ "" ∧ Unseparated t

variable {fields : List (String × String)} {f : String × String} {i : Nat}

theorem toList_form (fields : List (String × String)) :
    (form fields).toList = Split.record '&' '=' (fields.map fun f => (f.1.toList, f.2.toList)) := by
  induction fields with
  | nil => rfl
  | cons f fields ih =>
      cases fields with
      | nil => simp [form, Split.record]
      | cons g fields =>
          rw [form, List.map_cons, String.intercalate_cons_of_ne_nil (by simp),
            String.toList_append, String.toList_append]
          rw [form] at ih
          rw [ih]
          simp [Split.record, List.intercalate_cons_cons]

theorem credential_eq (body : String) (i : Nat) :
    credential (Text.split body '&') i =
      match Split.field '&' '=' body.toList i with
      | none => .error .indexOutOfBounds
      | some v => .ok (String.ofList v) := by
  rw [credential, Text.split, List.getElem?_map, Split.field]
  cases hpart : (Split.split '&' body.toList)[i]? with
  | none => rfl
  | some p =>
      rw [Option.map_some, Option.bind_some]
      simp only [Text.split, String.toList_ofList, List.getElem?_map, Split.value]
      cases (Split.split '=' p)[1]? with
      | none => rfl
      | some v => rfl

theorem refused_iff :
    Refused fields ↔ ∃ i < fields.length, ∃ e, credential (Text.split (form fields) '&') i =
    .error e := by
  have hpart : ∀ i, (∀ p ∈ ((form fields).toList.splitOn '&')[i]?, Split.NoValue '=' p) ↔
      ∃ e, credential (Text.split (form fields) '&') i = .error e := by
    intro i
    have hnone : (∀ p ∈ ((form fields).toList.splitOn '&')[i]?, Split.NoValue '=' p) ↔
        Split.field '&' '=' (form fields).toList i = none := Split.field_eq_none.symm
    rw [hnone, credential_eq]
    cases Split.field '&' '=' (form fields).toList i with
    | none => simp
    | some v => simp
  simp only [Refused, hpart]

/-- Without separators, a field is read back if it has a value. -/
theorem credential_form (hnames : ∀ f ∈ fields, Unseparated f.1)
    (hvalues : ∀ f ∈ fields, Unseparated f.2) (hf : fields[i]? = some f) :
    credential (Text.split (form fields) '&') i = if f.2 = "" then .error .indexOutOfBounds
    else .ok f.2 := by
  have hfield : Split.field '&' '=' (form fields).toList i = if f.2.toList = [] then none
      else some f.2.toList := by
    rw [toList_form]
    refine Split.field_record (f := (f.1.toList, f.2.toList)) (by decide) ?_ ?_ (by
      rw [List.getElem?_map, hf]; rfl)
    · rw [List.forall_mem_map]
      exact hnames
    · rw [List.forall_mem_map]
      exact hvalues
  rw [credential_eq, hfield]
  by_cases hempty : f.2 = ""
  · simp [hempty]
  · rw [if_neg (by simpa using hempty), if_neg hempty]
    exact congrArg Except.ok String.ofList_toList

/-- The body is refused, or it is read as it was meant. -/
def Readable (fields : List (String × String)) : Prop :=
  Refused fields ∨ ∀ f ∈ fields, Unseparated f.2

instance decidableReadable (fields : List (String × String)) : Decidable (Readable fields) :=
  inferInstanceAs (Decidable (_ ∨ _))

/-- A readable body is refused because of a text that cannot be sent, or read. -/
theorem Readable.cases (hnames : ∀ f ∈ fields, Unseparated f.1) (h : Readable fields) :
    (¬ Refused fields ∧
      ∀ i f, fields[i]? = some f → Sendable f.2 ∧
      credential (Text.split (form fields) '&') i = .ok f.2) ∨ (∃ f ∈ fields, ¬ Sendable f.2) ∧
        ∃ i < fields.length, ∃ e, credential (Text.split (form fields) '&') i = .error e := by
  by_cases hsend : ∀ f ∈ fields, Sendable f.2
  · have hread : ∀ i f, fields[i]? = some f → Sendable f.2 ∧
        credential (Text.split (form fields) '&') i = .ok f.2 := by
      intro i f hf
      have hmem := List.mem_of_getElem? hf
      rw [credential_form hnames (fun f hf => (hsend f hf).2) hf, if_neg (hsend f hmem).1]
      exact ⟨hsend f hmem, rfl⟩
    refine Or.inl ⟨?_, hread⟩
    rw [refused_iff]
    rintro ⟨i, hi, e, he⟩
    obtain ⟨-, hok⟩ := hread i _ (List.getElem?_eq_getElem hi)
    exact absurd (hok.symm.trans he) (by simp)
  · obtain ⟨f, hf⟩ := not_forall.mp hsend
    obtain ⟨hmem, hnot⟩ := not_forall.mp hf
    refine Or.inr ⟨⟨f, hmem, hnot⟩, ?_⟩
    rcases h with hrefused | hvalues
    · exact refused_iff.mp hrefused
    · have hempty : f.2 = "" := by
        by_contra hne
        exact hnot ⟨hne, hvalues f hmem⟩
      obtain ⟨i, hi⟩ := List.getElem?_of_mem hmem
      obtain ⟨hlength, -⟩ := List.getElem?_eq_some_iff.mp hi
      refine ⟨i, hlength, .indexOutOfBounds, ?_⟩
      rw [credential_form hnames hvalues hi, if_pos hempty]

/-! ## The two forms -/

section

variable {nick password old new confirm : String}

theorem exists_error {β : Type} {x : Except JavaException β} (h : ∀ v, x ≠ .ok v) :
    ∃ e, x = .error e := by
  cases x with
  | error e => exact ⟨e, rfl⟩
  | ok v => exact absurd rfl (h v)

theorem loginForm_names (nick password : String) :
    ∀ f ∈ loginForm nick password, Unseparated f.1 := by
  have hnames : ∀ n ∈ ["login", "password"], Unseparated n := by decide
  exact fun f hf => hnames f.1 (List.mem_map_of_mem hf)

theorem passwordForm_names (old new confirm : String) : ∀ f ∈ passwordForm old new confirm,
    Unseparated f.1 := by
  have hnames : ∀ n ∈ ["password", "passwordNew", "passwordConfirm"], Unseparated n := by decide
  exact fun f hf => hnames f.1 (List.mem_map_of_mem hf)

/-- The body of a login or a subscription. -/
theorem loginForm_cases (h : Readable (loginForm nick password)) :
    (¬ Refused (loginForm nick password) ∧ Sendable nick ∧ Sendable password ∧
      nickAndPassword (form (loginForm nick password)) = .ok (nick, password)) ∨
      ¬ (Sendable nick ∧ Sendable password) ∧
      ∃ e, nickAndPassword (form (loginForm nick password)) = .error e := by
  rcases h.cases (loginForm_names nick password) with
    ⟨hrefused, hread⟩ | ⟨⟨f, hmem, hnot⟩, i, hi, e, he⟩
  · obtain ⟨hnick, hfirst⟩ := hread 0 _ rfl
    obtain ⟨hpassword, hsecond⟩ := hread 1 _ rfl
    refine Or.inl ⟨hrefused, hnick, hpassword, ?_⟩
    rw [nickAndPassword]
    simp only [hfirst, hsecond, Except.ok_bind]
    rfl
  · refine Or.inr ⟨?_, ?_⟩
    · rintro ⟨hnick, hpassword⟩
      simp only [loginForm, List.mem_cons, List.not_mem_nil, or_false] at hmem
      rcases hmem with rfl | rfl
      · exact hnot hnick
      · exact hnot hpassword
    · refine exists_error fun v hv => ?_
      simp only [nickAndPassword, Except.bind_eq_ok] at hv
      obtain ⟨v0, h0, v1, h1, -⟩ := hv
      have htwo : i = 0 ∨ i = 1 := by
        change i < 2 at hi
        omega
      rcases htwo with rfl | rfl
      · exact absurd (h0.symm.trans he) (by simp)
      · exact absurd (h1.symm.trans he) (by simp)

/-- The body of a change of the password. -/
theorem passwordForm_cases (h : Readable (passwordForm old new confirm)) :
    (¬ Refused (passwordForm old new confirm) ∧ Sendable new ∧
      passwords (form (passwordForm old new confirm)) = .ok (old, new, confirm)) ∨
      ∃ e, passwords (form (passwordForm old new confirm)) = .error e := by
  rcases h.cases (passwordForm_names old new confirm) with ⟨hrefused, hread⟩ | ⟨-, i, hi, e, he⟩
  · obtain ⟨-, hold⟩ := hread 0 _ rfl
    obtain ⟨hnew, hsecond⟩ := hread 1 _ rfl
    obtain ⟨-, hconfirm⟩ := hread 2 _ rfl
    refine Or.inl ⟨hrefused, hnew, ?_⟩
    rw [passwords]
    simp only [hold, hsecond, hconfirm, Except.ok_bind]
    rfl
  · refine Or.inr (exists_error fun v hv => ?_)
    simp only [passwords, Except.bind_eq_ok] at hv
    obtain ⟨v0, h0, v1, h1, v2, h2, -⟩ := hv
    have hthree : i = 0 ∨ i = 1 ∨ i = 2 := by
      change i < 3 at hi
      omega
    rcases hthree with rfl | rfl | rfl
    · exact absurd (h0.symm.trans he) (by simp)
    · exact absurd (h1.symm.trans he) (by simp)
    · exact absurd (h2.symm.trans he) (by simp)

end

end Users

end Sxp
