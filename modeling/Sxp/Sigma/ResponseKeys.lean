-- SUMMARY: equals and hashCode of responses as objects whose fields may be null, and exactly when responses obey the laws of map keys.
import Sxp.Sigma.Pcs
import Sxp.Sigma.Soundness
import Mathlib.Data.Set.Basic

/-!
# Responses as map keys

`equals` is split between `Responses` and its subclasses. Schnorr and CCE responses ask for the
class of the other object first, CCD responses do not, and each class adds another number to the
hash code. An object that was made without values has null fields: for these `equals` answers
`false` or throws, so that a map could not find the object again.
-/

namespace Sxp

/-! ## Objects with null fields -/

/-- A `Masks` object. -/
structure JMasks where
  a : Option Int := none
  aBis : Option Int := none
deriving Repr, DecidableEq

/-- An object of a subclass of `Responses`. -/
structure JResponses where
  kind : ResponsesKind
  masks : Option JMasks := none
  challenge : Option Int := none
  response : Option Int := none
deriving Repr, DecidableEq

namespace JMasks

/-- `m.equals(o)`, where `o` may be null. -/
def equals (m : JMasks) : Option JMasks → Except JavaException Bool
  | none => .ok false
  | some o => do
      let okA := BigInteger.text (← notNull m.a) == BigInteger.text (← notNull o.a)
      match m.aBis, o.aBis with
      | none, none => return okA
      | some aBis, some aBis' => return okA && BigInteger.text aBis == BigInteger.text aBis'
      | _, _ => return false

def hashCode (m : JMasks) : Except JavaException (BitVec 32) := do
  let a ← notNull m.a
  match m.aBis with
  | none => return BitVec.ofInt 32 a
  | some aBis => return BitVec.ofInt 32 a + BitVec.ofInt 32 aBis

end JMasks

namespace JResponses

/-- `equals` of the base class. The masks of `y` are asked for their equality, and null masks of `x`
are an object that is not equal to them. -/
def superEquals (x y : JResponses) : Except JavaException Bool :=
  match y.masks, y.response, y.challenge with
  | some masks, some response, some challenge => do
      let okM ← masks.equals x.masks
      let okRes := BigInteger.text response == BigInteger.text (← notNull x.response)
      let okCha := BigInteger.text challenge == BigInteger.text (← notNull x.challenge)
      return okM && okRes && okCha
  | _, _, _ => .ok false

/-- `x.equals(y)`. -/
def equals (x y : JResponses) : Except JavaException Bool :=
  match x.kind with
  | .schnorr => if y.kind = .schnorr then x.superEquals y else .ok false
  | .cce => if y.kind = .cce then x.superEquals y else .ok false
  | .ccd => x.superEquals y

/-- `hashCode` of the base class, which names the response `hashC` as well. -/
def superHashCode (x : JResponses) : Except JavaException (BitVec 32) := do
  let hashM ← (← notNull x.masks).hashCode
  let hashR := BitVec.ofInt 32 (← notNull x.response)
  let hashC := BitVec.ofInt 32 (← notNull x.response)
  return hashM + hashR + hashC

def hashCode (x : JResponses) : Except JavaException (BitVec 32) := do
  return (← x.superHashCode) + Responses.hashOffset x.kind

end JResponses

/-! ## Objects without null fields -/

def Masks.toObject (m : Masks) : JMasks := { a := some m.a, aBis := m.aBis }

def Responses.toObject (r : Responses) : JResponses where
  kind := r.kind
  masks := some r.masks.toObject
  challenge := some r.challenge
  response := some r.response

theorem BigInteger.text_beq (a b : Int) : (text a == text b) = (a == b) := by
  rw [Bool.eq_iff_iff, beq_iff_eq, beq_iff_eq, text_injective.eq_iff]

theorem Masks.toObject_injective : Function.Injective toObject := by
  rintro ⟨a, aBis⟩ ⟨a', aBis'⟩ h
  simpa [toObject] using h

theorem Masks.beq_eq (m o : Masks) : (m == o) = (m.a == o.a && m.aBis == o.aBis) := by
  obtain ⟨a, aBis⟩ := m
  obtain ⟨a', aBis'⟩ := o
  rw [Bool.eq_iff_iff]
  simp

theorem Masks.equals_toObject (m o : Masks) :
    m.toObject.equals (some o.toObject) = .ok (m == o) := by
  rw [Masks.beq_eq]
  obtain ⟨a, _ | aBis⟩ := m <;> obtain ⟨a', _ | aBis'⟩ := o <;>
    simp [JMasks.equals, toObject, notNull, BigInteger.text_beq, pure, Except.pure]

namespace Responses

/-- On objects without null fields `equals` is the one that the maps compare keys with. -/
theorem equals_toObject (r o : Responses) : r.toObject.equals o.toObject = .ok (r.equals o) := by
  have hsuper : r.toObject.superEquals o.toObject =
      .ok (o.masks == r.masks && o.response == r.response && o.challenge == r.challenge) := by
    simp only [JResponses.superEquals, toObject, Masks.equals_toObject, notNull,
      BigInteger.text_beq, Except.ok_bind]
    rfl
  rw [JResponses.equals, hsuper]
  cases hr : r.kind <;> cases ho : o.kind <;> simp [toObject, equals, hr, ho]

theorem hashCode_toObject (r : Responses) : r.toObject.hashCode = .ok r.hashCode := by
  obtain ⟨kind, ⟨a, _ | aBis⟩, challenge, response⟩ := r <;> rfl

end Responses

/-! ## The laws of map keys -/

namespace JResponses

/-- The fields that every test and hash code needs are set. Only `aBis` may be null. -/
def Complete (x : JResponses) : Prop := ∃ r : Responses, r.toObject = x

/-- An object with a null field is not even equal to itself. -/
theorem equals_self_iff {x : JResponses} : x.equals x = .ok true ↔ x.Complete := by
  constructor
  · intro h
    have hsuper : x.superEquals x = .ok true := by
      cases hk : x.kind <;> simpa [equals, hk] using h
    obtain ⟨kind, _ | ⟨_ | a, aBis⟩, _ | challenge, _ | response⟩ := x <;> try cases hsuper
    exact ⟨⟨kind, ⟨a, aBis⟩, challenge, response⟩, rfl⟩
  · rintro ⟨r, rfl⟩
    rw [Responses.equals_toObject, Responses.equals_self]

/-- A CCD response and a response of another class with the same fields. -/
structure Twins (x y : JResponses) : Prop where
  ccd : x.kind = .ccd
  other : y.kind ≠ .ccd
  masks : y.masks = x.masks
  challenge : y.challenge = x.challenge
  response : y.response = x.response

/-- What a hash map asks of its keys, and what a clause's map then returns: the key that was last
put for a response that is equal, and no key that was put for a response of another class. The maps
hold responses without null fields, since the others fail the first law. -/
structure KeyLaws (S : Set JResponses) : Prop where
  refl : ∀ x ∈ S, x.equals x = .ok true
  symm : ∀ x ∈ S, ∀ y ∈ S, x.equals y = .ok true → y.equals x = .ok true
  trans : ∀ x ∈ S, ∀ y ∈ S, ∀ z ∈ S, x.equals y = .ok true → y.equals z = .ok true →
    x.equals z = .ok true
  hash : ∀ x ∈ S, ∀ y ∈ S, x.equals y = .ok true → ∃ h, x.hashCode = .ok h ∧ y.hashCode = .ok h
  get : ∀ (es es' : List (Responses × ElGamalKey)) (res res' : Responses) (key : ElGamalKey),
    (∀ e ∈ es ++ (res, key) :: es', e.1.toObject ∈ S) → res'.toObject ∈ S → res'.equals res = true →
      (∀ e ∈ es', res'.equals e.1 = false) →
        (HashMap.ofEntries (es ++ (res, key) :: es')).get res' = some key
  kind : ∀ (es : List (Responses × ElGamalKey)) (res' : Responses) (key : ElGamalKey),
    (∀ e ∈ es, e.1.toObject ∈ S) → res'.toObject ∈ S → (HashMap.ofEntries es).get res' = some key →
      ∃ res, (res, key) ∈ es ∧ res.kind = res'.kind

section Laws

variable {S : Set JResponses}

/-- Without twins equality is identity of the fields and of the class. -/
theorem eq_of_equals (hS : ∀ x ∈ S, ∀ y ∈ S, ¬ Twins x y) {r o : Responses} (hr : r.toObject ∈ S)
    (ho : o.toObject ∈ S) (h : r.equals o = true) : r = o := by
  obtain ⟨hkind, hmasks, hresponse, hchallenge⟩ := Responses.equals_iff.mp h
  have hkind' : o.kind = r.kind := by
    rcases hkind with hccd | hkind
    · by_contra hne
      rw [hccd] at hne
      exact hS _ hr _ ho {
        ccd := hccd
        other := hne
        masks := congrArg (fun m : Masks => some m.toObject) hmasks
        challenge := congrArg some hchallenge
        response := congrArg some hresponse }
    · exact hkind
  obtain ⟨kind, masks, challenge, response⟩ := r
  obtain ⟨kind', masks', challenge', response'⟩ := o
  obtain rfl : kind' = kind := hkind'
  obtain rfl : masks' = masks := hmasks
  obtain rfl : challenge' = challenge := hchallenge
  obtain rfl : response' = response := hresponse
  rfl

theorem eq_of_equals_ok (hcomplete : ∀ x ∈ S, x.Complete) (hS : ∀ x ∈ S, ∀ y ∈ S, ¬ Twins x y)
    {x y : JResponses} (hx : x ∈ S) (hy : y ∈ S) (h : x.equals y = .ok true) : x = y := by
  obtain ⟨r, rfl⟩ := hcomplete x hx
  obtain ⟨o, rfl⟩ := hcomplete y hy
  rw [Responses.equals_toObject, Except.ok.injEq] at h
  rw [eq_of_equals hS hx hy h]

theorem KeyLaws.of_no_twins (hcomplete : ∀ x ∈ S, x.Complete) (hS : ∀ x ∈ S, ∀ y ∈ S, ¬ Twins x y) :
    KeyLaws S where
  refl x hx := equals_self_iff.mpr (hcomplete x hx)
  symm x hx y hy h := by
    obtain rfl := eq_of_equals_ok hcomplete hS hx hy h
    exact h
  trans x hx y hy z _ h h' := by
    obtain rfl := eq_of_equals_ok hcomplete hS hx hy h
    exact h'
  hash x hx y hy h := by
    obtain rfl := eq_of_equals_ok hcomplete hS hx hy h
    obtain ⟨r, rfl⟩ := hcomplete x hx
    exact ⟨r.hashCode, r.hashCode_toObject, r.hashCode_toObject⟩
  get es es' res res' key hes hres' h hlast := by
    have hres : res.toObject ∈ S := hes (res, key) (List.mem_append_right _ List.mem_cons_self)
    refine HashMap.get_ofEntries_of_last
      (beq_iff_eq.mpr (eq_of_equals hS hres' hres h)) fun e he => ?_
    rw [beq_eq_false_iff_ne]
    rintro rfl
    exact Bool.false_ne_true ((hlast e he).symm.trans (Responses.equals_self _))
  kind es res' key _ _ h := ⟨res', HashMap.mem_of_get_ofEntries h, rfl⟩

/-- A CCD response equals its twin, which does not equal it. -/
theorem KeyLaws.no_twins (h : KeyLaws S) {x y : JResponses} (hx : x ∈ S) (hy : y ∈ S) :
    ¬ Twins x y := by
  intro htwins
  obtain ⟨r, rfl⟩ := equals_self_iff.mp (h.refl x hx)
  obtain ⟨o, rfl⟩ := equals_self_iff.mp (h.refl y hy)
  have hequals : r.equals o = true := Responses.equals_iff.mpr
    ⟨.inl htwins.ccd, Masks.toObject_injective (Option.some.inj htwins.masks),
      Option.some.inj htwins.response, Option.some.inj htwins.challenge⟩
  have hback := h.symm _ hx _ hy (by rw [Responses.equals_toObject, hequals])
  rw [Responses.equals_toObject, Except.ok.injEq] at hback
  rcases (Responses.equals_iff.mp hback).1 with hccd | hkind
  · exact htwins.other hccd
  · exact htwins.other (hkind.symm.trans htwins.ccd)

/-- Responses obey the laws of map keys exactly if their fields are set and no CCD response has the
fields of a response of another class. -/
theorem keyLaws_iff : KeyLaws S ↔ (∀ x ∈ S, x.Complete) ∧ ∀ x ∈ S, ∀ y ∈ S, ¬ Twins x y :=
  ⟨fun h => ⟨fun x hx => equals_self_iff.mp (h.refl x hx), fun _ hx _ hy => h.no_twins hx hy⟩,
    fun h => KeyLaws.of_no_twins h.1 h.2⟩

end Laws

end JResponses

namespace Sample

/-- A response whose other fields do not depend on its class. -/
def twin (kind : ResponsesKind) : Responses where
  kind := kind
  masks := { a := 1, aBis := some 1 }
  challenge := 0
  response := 0

end Sample

/-- Only the CCD response finds the other one equal. Their hash codes are different, so that a map
does not. -/
theorem JResponses.ccd_twin_equals :
    (Sample.twin .ccd).toObject.equals (Sample.twin .cce).toObject = .ok true ∧
      (Sample.twin .cce).toObject.equals (Sample.twin .ccd).toObject = .ok false ∧
      (Sample.twin .ccd).hashCode ≠ (Sample.twin .cce).hashCode ∧
      ((HashMap.ofEntries [(Sample.twin .cce, Sample.smallTrent.getKey)]).get
        (Sample.twin .ccd) = none) ∧
      ¬ KeyLaws {x | x.Complete} := by
  refine ⟨by decide +kernel, by decide +kernel, by decide, by decide, fun h => ?_⟩
  exact h.no_twins ⟨Sample.twin .ccd, rfl⟩ ⟨Sample.twin .cce, rfl⟩ {
    ccd := rfl
    other := by decide
    masks := rfl
    challenge := rfl
    response := rfl }

/-! ## The maps of clauses -/

/-- The responses of promises are Schnorr and CCE responses, which have no twins. -/
theorem JResponses.keyLaws_promises : KeyLaws {x | x.Complete ∧ x.kind ≠ .ccd} :=
  KeyLaws.of_no_twins (fun _ hx => hx.1) fun _ hx _ _ htwins => hx.2 htwins.ccd

/-- The map of a clause is filled response by response. -/
theorem PCS.clause_rK (res : ResEncrypt) (schnorr cce : Responses) (k T : ElGamalKey) :
    (clause res schnorr k cce T).rK = HashMap.ofEntries [(schnorr, k), (cce, T)] := rfl

/-- The key with which `Verifies` checks a response is the one that was put for it. -/
theorem And.keyOf_of_equals {a : And} {es es' : List (Responses × ElGamalKey)}
    {res res' : Responses} {key : ElGamalKey}
    (hrK : a.rK = HashMap.ofEntries (es ++ (res, key) :: es'))
    (hkinds : ∀ e ∈ es ++ (res, key) :: es', e.1.kind ≠ .ccd) (hkind : res'.kind ≠ .ccd)
    (h : res'.equals res = true) (hlast : ∀ e ∈ es', res'.equals e.1 = false) :
    a.keyOf res' = .ok key := by
  have hget := JResponses.keyLaws_promises.get es es' res res' key (fun e he =>
    ⟨⟨e.1, rfl⟩, hkinds e he⟩) ⟨⟨res', rfl⟩, hkind⟩ h hlast
  rw [keyOf, hrK, hget]

end Sxp
