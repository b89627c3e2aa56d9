-- SUMMARY: Which password logs in: the password last set for a nickname, and the runs in which every login succeeds exactly with it.
import Sxp.Controller.Credentials

/-!
# Passwords

The password last set for a nickname is what its owner sent with the last subscription or change
of password that was answered with a token. Besides what the handlers misread, a login goes wrong
where a nickname is given away twice, where the answer hides that nobody was stored, and where
two digests decode to one text.
-/

namespace Sxp

namespace Users

/-! ## The password last set -/

/-- The password last set for a nickname, if there is one. -/
abbrev LastSet := String → Option String

/-- What a request that was answered leaves as last set. A change of password is for the nickname
that the token was given for. -/
def record (s : UserState) (last : LastSet) (request : UsersRequest)
    (answer : Except JavaException UsersAnswer) : LastSet :=
  match request, answer with
  | .subscribe nick password _, .ok (.token _) => Function.update last nick (some password)
  | .changePassword token _ new _ _, .ok (.token _) =>
      match SimpleAuthentifier.getLogin s.tokens token with
      | some nick => Function.update last nick (some new)
      | none => last
  | _, _ => last

section

variable (db : Comparison) (platform : Platform) (sha256 : List UInt8 → List UInt8)

/-- The requests, with the passwords last set. -/
def recorded : Machine (UserState × LastSet) UsersRequest (Except JavaException UsersAnswer) where
  init := (.empty, fun _ => none)
  step s request :=
    let (s', answer) := handle db platform sha256 s.1 request
    ((s', record s.1 s.2 request answer), answer)

/-- The login is answered with a token. -/
def LoggedIn (s : UserState) (nick password token : String) : Prop :=
  ∃ t, (handle db platform sha256 s (.login nick password token)).2 = .ok (.token t)

/-- A login succeeds exactly with the password last set. -/
def Right (s : UserState) (last : LastSet) : UsersRequest → Prop
  | .login nick password token => LoggedIn db platform sha256 s nick password token ↔
  last nick = some password | _ => True

/-! ## The condition -/

/-- The digest of the password and that of a user with the nickname decode to one text only if they
are equal. -/
def Distinguished (s : UserState) (nick password : String) : Prop :=
  ∀ u ∈ s.users, u.nick = some nick → ∀ h ∈ u.passwordHash,
    platform.utf8 (SHA256Hasher.getHash sha256 u.salt (getBytes password)) = platform.utf8 h →
      SHA256Hasher.getHash sha256 u.salt (getBytes password) = h

/-- The nickname is valid, and nobody has it. -/
def Free (s : UserState) (nick : String) : Prop :=
  3 ≤ Text.utf16Length nick ∧ Text.utf16Length nick ≤ 64 ∧ ∀ u ∈ s.users, u.nick ≠ some nick

/-- The database finds under the nickname only users who have it. -/
def FindsOwn (s : UserState) (nick : String) : Prop := db.FindsOwn User.nick s.users nick

/-- What a request has to meet. -/
def Met (s : UserState) : UsersRequest → Prop
  | .login nick password _ =>
      Readable (loginForm nick password) ∧
        (Refused (loginForm nick password) ∨
          FindsOwn db s nick ∧ Distinguished platform sha256 s nick password)
  | .logout _ => True
  | .subscribe nick password _ =>
      Readable (loginForm nick password) ∧ (Refused (loginForm nick password) ∨ Free s nick)
  | .changePassword token old new confirm _ =>
      Readable (passwordForm old new confirm) ∧
        (Refused (passwordForm old new confirm) ∨
          ∀ nick, SimpleAuthentifier.getLogin s.tokens token = some nick → FindsOwn db s nick)

/-! ## The invariant -/

/-- A nickname has at most one user, whose digest is that of the password last set, and both can
be sent. -/
structure Kept (s : UserState) (last : LastSet) : Prop where
  nicks : s.users.Pairwise fun u v => u.nick ≠ v.nick
  stored : ∀ u ∈ s.users, ∃ nick password, u.nick = some nick ∧ last nick = some password ∧
    u.passwordHash = some (SHA256Hasher.getHash sha256 u.salt (getBytes password))
  set : ∀ nick password, last nick = some password →
    Sendable nick ∧ Sendable password ∧ ∃ u ∈ s.users, u.nick = some nick

end

variable {db : Comparison} {platform : Platform} {sha256 : List UInt8 → List UInt8} {s : UserState}
  {last : LastSet} {nick password token : String} {u : User}

theorem kept_empty : Kept sha256 .empty fun _ => none where
  nicks := List.Pairwise.nil
  stored := List.forall_mem_nil _
  set nick password h := by cases h

/-- The tokens play no role. -/
theorem Kept.of_users {s' : UserState} (h : Kept sha256 s last) (husers : s'.users = s.users) :
    Kept sha256 s' last where
  nicks := by
    rw [husers]
    exact h.nicks
  stored := by
    rw [husers]
    exact h.stored
  set := by
    rw [husers]
    exact h.set

theorem mem_findAllByNick {users : List User} {username : Option String}
    (h : u ∈ findAllByNick db users username) :
    u ∈ users ∧ (∃ nick, u.nick = some nick) ∧ ∃ nick, username = some nick := by
  obtain ⟨hu, hholds⟩ := Comparison.mem_findAllByAttribute.mp h
  obtain ⟨nick, nick', hnick, husername, -⟩ := Comparison.holds_eq_true.mp hholds
  exact ⟨hu, ⟨nick, hnick⟩, nick', husername⟩

theorem FindsOwn.mem_iff (hown : FindsOwn db s nick) :
    u ∈ findAllByNick db s.users (some nick) ↔ u ∈ s.users ∧ u.nick = some nick :=
  Comparison.FindsOwn.mem_iff hown

/-- The users with a nickname: nobody, or the one whose password was set. -/
theorem Kept.findAllByNick (h : Kept sha256 s last) (hown : FindsOwn db s nick) :
    (last nick = none ∧ findAllByNick db s.users (some nick) = []) ∨
      ∃ u password, findAllByNick db s.users (some nick) = [u] ∧ last nick = some password ∧
        u.passwordHash = some (SHA256Hasher.getHash sha256 u.salt (getBytes password)) := by
  have hpairwise : (Sxp.findAllByNick db s.users (some nick)).Pairwise fun u v => u.nick ≠ v.nick :=
    h.nicks.filter _
  cases hfound : Sxp.findAllByNick db s.users (some nick) with
  | nil =>
      refine Or.inl ⟨?_, rfl⟩
      cases hlast : last nick with
      | none => rfl
      | some password =>
          obtain ⟨-, -, u, hu, hnick⟩ := h.set nick password hlast
          have hmem := hown.mem_iff.mpr ⟨hu, hnick⟩
          rw [hfound] at hmem
          exact absurd hmem List.not_mem_nil
  | cons u rest =>
      have hnicks : ∀ v ∈ Sxp.findAllByNick db s.users (some nick), v ∈ s.users ∧
          v.nick = some nick :=
        fun v hv => hown.mem_iff.mp hv
      rw [hfound] at hpairwise hnicks
      obtain ⟨hu, hnick⟩ := hnicks u List.mem_cons_self
      obtain ⟨nick', password, hnick', hlast, hhash⟩ := h.stored u hu
      obtain rfl : nick' = nick := Option.some.inj (hnick'.symm.trans hnick)
      refine Or.inr ⟨u, password, ?_, hlast, hhash⟩
      cases rest with
      | nil => rfl
      | cons v rest =>
          obtain ⟨-, hv⟩ := hnicks v (List.mem_cons_of_mem _ List.mem_cons_self)
          exact absurd (hnick.trans hv.symm)
            ((List.pairwise_cons.mp hpairwise).1 v List.mem_cons_self)

/-! ## Logins -/

theorem getUser_of_nil {users : List User} (h : Sxp.findAllByNick db users (some nick) = []) :
    getUser db platform sha256 users (some nick) password = .ok none := by
  rw [getUser, h, getUserLoop]

theorem getUser_of_one {users : List User} {digest : List UInt8}
    (h : Sxp.findAllByNick db users (some nick) = [u]) (hdigest : u.passwordHash = some digest) :
    getUser db platform sha256 users (some nick) password =
      .ok (if platform.utf8 digest = platform.utf8
        (SHA256Hasher.getHash sha256 u.salt (getBytes password)) then some u else none) := by
  rw [getUser, h, getUserLoop, hdigest]
  simp only [notNull, Except.ok_bind, getUserLoop]
  split <;> rfl

theorem getHash_inj (hsha256 : Function.Injective sha256) {salt : Option (List UInt8)}
    {password' : String} :
    SHA256Hasher.getHash sha256 salt (getBytes password) = SHA256Hasher.getHash sha256 salt
      (getBytes password') ↔ password = password' := by
  constructor
  · intro h
    exact getBytes_injective (List.append_cancel_left (hsha256 h))
  · rintro rfl
    rfl

/-- A login succeeds exactly with the password last set, where it is refused or the digests are
distinguished. -/
theorem Kept.login_right (hsha256 : Function.Injective sha256) (h : Kept sha256 s last)
    (hmet : Met db platform sha256 s (.login nick password token)) :
    Right db platform sha256 s last (.login nick password token) := by
  obtain ⟨hreadable, htold⟩ := hmet
  rw [Right, LoggedIn, handle, login]
  rcases loginForm_cases hreadable with ⟨hrefused, hnick, hpassword, hread⟩ | ⟨hnot, e, he⟩
  · obtain ⟨hown, hdistinct⟩ := htold.resolve_left hrefused
    rw [hread, Except.ok_bind]
    rcases h.findAllByNick hown with ⟨hlast, hnobody⟩ | ⟨u, password', hone, hlast, hdigest⟩
    · simp only [getUser_of_nil hnobody, hlast, Except.ok_bind]
      simp [caught, pure, Except.pure]
    · simp only [getUser_of_one hone hdigest, hlast, Except.ok_bind]
      obtain ⟨hu, hnick'⟩ := hown.mem_iff.mp (hone ▸ List.mem_singleton_self u)
      have hsame : platform.utf8 (SHA256Hasher.getHash sha256 u.salt (getBytes password')) =
          platform.utf8 (SHA256Hasher.getHash sha256 u.salt (getBytes password)) ↔
          password' = password := by
        constructor
        · intro htexts
          have hhash := hdistinct u hu hnick' _ hdigest htexts.symm
          exact ((getHash_inj hsha256).mp hhash).symm
        · rintro rfl
          rfl
      by_cases hpass : password' = password
      · rw [if_pos (hsame.mpr hpass), hpass]
        exact iff_of_true ⟨_, rfl⟩ rfl
      · rw [if_neg fun htexts => hpass (hsame.mp htexts)]
        exact iff_of_false (by simp [caught, pure, Except.pure]) fun hlast =>
          hpass (Option.some.inj hlast)
  · rw [he]
    refine iff_of_false (by simp [caught, bind, Except.bind]) fun hlast => hnot ?_
    obtain ⟨hnick, hpassword, -⟩ := h.set nick password hlast
    exact ⟨hnick, hpassword⟩

/-! ## Steps -/

/-- What is stored has the digest of the password, and is the user otherwise. -/
theorem parse_eq_ok {nonce : User.Field → Int} {u' : User}
    (h : CryptoUserManagerDecorator.parse platform sha256 nonce u = .ok u') :
    ∃ message signature, u.passwordHash = some message ∧
      u' = { u with passwordHash := some (SHA256Hasher.getHash sha256 u.salt message),
                    signature := some signature } := by
  obtain ⟨hashed, hhashed, hsigned⟩ := Except.bind_eq_ok.mp h
  obtain ⟨message, hmessage, hset⟩ := Except.bind_eq_ok.mp hhashed
  obtain ⟨signature, -, hu'⟩ := Except.bind_eq_ok.mp hsigned
  refine ⟨message, signature, notNull_eq_ok.mp hmessage, ?_⟩
  rw [← Except.ok.inj hu', ← Except.ok.inj hset]
  rfl

/-- A user is stored under a nickname that nobody has. -/
theorem Kept.insert (h : Kept sha256 s last) (hnick : Sendable nick) (hpassword : Sendable password)
    (hfree : ∀ v ∈ s.users, v.nick ≠ some nick) (hu : u.nick = some nick)
    (hdigest : u.passwordHash = some (SHA256Hasher.getHash sha256 u.salt (getBytes password)))
    (tokens : HashMap String Logins) :
    Kept sha256 { users := s.users ++ [u], tokens }
    (Function.update last nick (some password)) where
  nicks := by
    rw [List.pairwise_append]
    refine ⟨h.nicks, List.pairwise_singleton _ _, ?_⟩
    intro v hv w hw
    rw [List.mem_singleton.mp hw, hu]
    exact hfree v hv
  stored := by
    intro v hv
    rcases List.mem_append.mp hv with hold | hnew
    · obtain ⟨nick', password', hnick', hlast, hdigest'⟩ := h.stored v hold
      have hne : nick' ≠ nick := by
        rintro rfl
        exact hfree v hold hnick'
      exact ⟨nick', password', hnick', by rw [Function.update_of_ne hne, hlast], hdigest'⟩
    · rw [List.mem_singleton.mp hnew]
      exact ⟨nick, password, hu, Function.update_self .., hdigest⟩
  set := by
    intro nick' password' hlast
    by_cases heq : nick' = nick
    · subst heq
      rw [Function.update_self] at hlast
      obtain rfl := Option.some.inj hlast
      exact ⟨hnick, hpassword, u, List.mem_append_right _ (List.mem_singleton_self u), hu⟩
    · rw [Function.update_of_ne heq] at hlast
      obtain ⟨hnick', hpassword', v, hv, hvnick⟩ := h.set nick' password' hlast
      exact ⟨hnick', hpassword', v, List.mem_append_left _ hv, hvnick⟩

/-- The one user with a nickname is replaced. -/
theorem Kept.replace {u' : User} (h : Kept sha256 s last) (hpassword : Sendable password)
    (hmem : u ∈ s.users) (hu : u.nick = some nick) (hu' : u'.nick = some nick)
    (hdigest : u'.passwordHash = some (SHA256Hasher.getHash sha256 u'.salt (getBytes password)))
    (tokens : HashMap String Logins) :
    Kept sha256 { users := s.users.map (replaced u u'), tokens }
    (Function.update last nick (some password)) := by
  have hnicks : ∀ v, (replaced u u' v).nick = v.nick := by
    intro v
    rw [replaced]
    split
    · rename_i heq
      rw [heq, hu, hu']
    · rfl
  have honly : ∀ v ∈ s.users, v.nick = some nick → v = u := by
    intro v hv hvnick
    by_contra hne
    have hsymm : Std.Symm fun u v : User => u.nick ≠ v.nick := ⟨fun _ _ hxy => hxy.symm⟩
    exact h.nicks.forall hv hmem hne (hvnick.trans hu.symm)
  refine ⟨?_, ?_, ?_⟩
  · rw [List.pairwise_map]
    simpa only [hnicks] using h.nicks
  · intro w hw
    obtain ⟨v, hv, rfl⟩ := List.mem_map.mp hw
    by_cases heq : v = u
    · rw [replaced, if_pos heq]
      exact ⟨nick, password, hu', Function.update_self .., hdigest⟩
    · obtain ⟨nick', password', hnick', hlast, hdigest'⟩ := h.stored v hv
      have hne : nick' ≠ nick := by
        rintro rfl
        exact heq (honly v hv hnick')
      rw [replaced, if_neg heq]
      exact ⟨nick', password', hnick', by rw [Function.update_of_ne hne, hlast], hdigest'⟩
  · intro nick' password' hlast
    have hkept : ∀ v ∈ s.users, v.nick = some nick' →
        ∃ w ∈ s.users.map (replaced u u'), w.nick = some nick' :=
      fun v hv hvnick => ⟨replaced u u' v, List.mem_map_of_mem hv, (hnicks v).trans hvnick⟩
    by_cases heq : nick' = nick
    · subst heq
      rw [Function.update_self] at hlast
      obtain rfl := Option.some.inj hlast
      obtain ⟨nick', password', hnick', hlast', -⟩ := h.stored u hmem
      obtain rfl := Option.some.inj (hnick'.symm.trans hu)
      exact ⟨(h.set nick' password' hlast').1, hpassword, hkept u hmem hu⟩
    · rw [Function.update_of_ne heq] at hlast
      obtain ⟨hnick', hpassword', v, hv, hvnick⟩ := h.set nick' password' hlast
      exact ⟨hnick', hpassword', hkept v hv hvnick⟩

theorem Kept.subscribe (h : Kept sha256 s last) (draws : UserDraws)
    (hmet : Met db platform sha256 s (.subscribe nick password draws)) :
    Kept sha256 ((recorded db platform sha256).next (s, last) (.subscribe nick password draws)).1
      ((recorded db platform sha256).next (s, last) (.subscribe nick password draws)).2 := by
  obtain ⟨hreadable, hfree⟩ := hmet
  simp only [Machine.next, recorded, handle, Users.subscribe]
  rcases loginForm_cases hreadable with ⟨hrefused, hnick, hpassword, hread⟩ | ⟨-, e, he⟩
  · obtain ⟨hmin, hmax, hfree⟩ := hfree.resolve_left hrefused
    rw [hread, Except.ok_bind]
    cases hparse : CryptoUserManagerDecorator.parse platform sha256 draws.nonce
      (newUser draws nick password) with
    | error e => exact h
    | ok u =>
        obtain ⟨message, signature, hmessage, rfl⟩ := parse_eq_ok hparse
        obtain rfl := Option.some.inj hmessage
        rw [Except.ok_bind, if_pos (by simp [UserValidator.validate, newUser, hmin, hmax])]
        exact h.insert hnick hpassword hfree rfl rfl _
  · rw [he]
    exact h

theorem mem_of_getUser {users : List User} {username : Option String}
    (h : getUser db platform sha256 users username password = .ok (some u)) :
    u ∈ Sxp.findAllByNick db users username := by
  rw [getUser] at h
  generalize Sxp.findAllByNick db users username = found at h
  induction found with
  | nil => cases h
  | cons v found ih =>
      rw [getUserLoop] at h
      obtain ⟨digest, -, h⟩ := Except.bind_eq_ok.mp h
      dsimp only at h
      split at h
      · cases h
        exact List.mem_cons_self
      · exact List.mem_cons_of_mem _ (ih h)

/-- What a change of password can do: nothing to the users, or the replacement of the one it
found. -/
theorem changePassword_cases (s : UserState) (token : Option String) (jsonCredentials : String)
    (draws : UserDraws) :
    ((changePassword db platform sha256 s token jsonCredentials draws).1.users = s.users ∧
      ∀ t, (changePassword db platform sha256 s token jsonCredentials draws).2 ≠ .ok (.token t)) ∨
    ∃ old new u u' tokens t, passwords jsonCredentials = .ok (old, new, new) ∧
      u ∈ Sxp.findAllByNick db s.users (SimpleAuthentifier.getLogin s.tokens token) ∧
      CryptoUserManagerDecorator.parse platform sha256 draws.nonce
      (withPassword draws new u) = .ok u' ∧
      changePassword db platform sha256 s token jsonCredentials draws =
        ({ users := s.users.map (replaced u u'), tokens }, .ok (.token t)) := by
  unfold changePassword
  split
  · exact Or.inl ⟨rfl, by simp⟩
  · rename_i old new confirm hread
    split
    · exact Or.inl ⟨rfl, by simp⟩
    · rename_i hconfirm
      obtain rfl : new = confirm := not_not.mp hconfirm
      dsimp only
      split
      · exact Or.inl ⟨rfl, by simp⟩
      · exact Or.inl ⟨rfl, by simp⟩
      · rename_i u hfound
        split
        · exact Or.inl ⟨rfl, by simp⟩
        · rename_i u' hparse
          split
          · exact Or.inr ⟨old, new, u, u', _, _, hread, mem_of_getUser hfound, hparse, rfl⟩
          · exact Or.inl ⟨rfl, by simp⟩

theorem Kept.changePassword (h : Kept sha256 s last) (token : Option String)
    (old new confirm : String) (draws : UserDraws)
    (hmet : Met db platform sha256 s
      (.changePassword token old new confirm draws)) :
    Kept sha256 ((recorded db platform sha256).next (s,
      last) (.changePassword token old new confirm draws)).1
      ((recorded db platform sha256).next (s,
        last) (.changePassword token old new confirm draws)).2 := by
  simp only [Machine.next, recorded, handle]
  rcases @changePassword_cases db platform sha256 s token
    (form (passwordForm old new confirm)) draws with ⟨husers, hanswer⟩ |
    ⟨old', new', u, u', tokens, t, hread, hfound, hparse, hchange⟩
  · have hlast : record s last (.changePassword token old new confirm draws)
        (Users.changePassword db platform sha256 s token
          (form (passwordForm old new confirm)) draws).2 = last := by
      cases hresult : (Users.changePassword db platform sha256 s token
        (form (passwordForm old new confirm)) draws).2 with
      | error e => rfl
      | ok answer =>
          cases answer with
          | token t => exact absurd hresult (hanswer t)
          | error => rfl
          | null => rfl
    rw [hlast]
    exact h.of_users husers
  · obtain ⟨hreadable, hfinds⟩ := hmet
    rcases passwordForm_cases hreadable with ⟨hrefused, hnew, hread'⟩ | ⟨e, he⟩
    · rw [hchange]
      have htexts : (old', new', new') = (old, new, confirm) :=
        Except.ok.inj (hread.symm.trans hread')
      have hsame : new' = new := congrArg (fun t => t.2.1) htexts
      subst hsame
      obtain ⟨-, -, nick, hlogin⟩ := mem_findAllByNick hfound
      rw [hlogin] at hfound
      obtain ⟨hmem, hnick⟩ := (hfinds.resolve_left hrefused nick hlogin).mem_iff.mp hfound
      obtain ⟨message, signature, hmessage, hu'⟩ := parse_eq_ok hparse
      have hbytes : getBytes new' = message := Option.some.inj hmessage
      simp only [record, hlogin]
      refine h.replace hnew hmem hnick ?_ ?_ tokens
      · rw [hu']
        exact hnick
      · rw [hu', hbytes]
    · rw [he] at hread
      cases hread

theorem Kept.login (h : Kept sha256 s last) (nick password token : String) :
    Kept sha256 ((recorded db platform sha256).next (s, last) (.login nick password token)).1
      ((recorded db platform sha256).next (s, last) (.login nick password token)).2 := by
  have husers : (handle db platform sha256 s (.login nick password token)).1.users = s.users := by
    rw [handle]
    cases hresult : Users.login db platform sha256 s (form (loginForm nick password)) token with
    | error e => rfl
    | ok r =>
        simp only [Users.login, Except.bind_eq_ok] at hresult
        obtain ⟨texts, -, found, -, hanswer⟩ := hresult
        cases found with
        | none =>
            cases hanswer
            rfl
        | some u =>
            cases hanswer
            rfl
  have hlast : ∀ answer, record s last (.login nick password token) answer = last := fun _ => rfl
  simp only [Machine.next, recorded, hlast]
  exact h.of_users husers

theorem Kept.next (h : Kept sha256 s last) {request : UsersRequest}
    (hmet : Met db platform sha256 s request) :
    Kept sha256 ((recorded db platform sha256).next (s, last) request).1
      ((recorded db platform sha256).next (s, last) request).2 := by
  cases request with
  | login nick password token => exact h.login nick password token
  | logout token => exact h.of_users rfl
  | subscribe nick password draws => exact h.subscribe draws hmet
  | changePassword token old new confirm draws =>
      exact h.changePassword token old new confirm draws hmet

/-! ## Runs -/

/-- In a run whose requests all meet the condition, every login succeeds exactly with the
password last set for its nickname. -/
theorem login_right_of_met (hsha256 : Function.Injective sha256) (requests : List UsersRequest)
    (hmet : ∀ t ∈ (recorded db platform sha256).trace (recorded db platform sha256).init requests,
      Met db platform sha256 t.1.1 t.2) :
    ∀ t ∈ (recorded db platform sha256).trace (recorded db platform sha256).init requests,
      Right db platform sha256 t.1.1 t.1.2 t.2 := by
  refine (recorded db platform sha256).trace_forall_of_good (P := fun s => Kept sha256 s.1 s.2)
    (C := fun s request => Met db platform sha256 s.1 request)
    (Q := fun s request => Right db platform sha256 s.1 s.2 request) ?_ ?_ kept_empty requests hmet
  · intro s request h hrequest
    exact h.next hrequest
  · intro s request h hrequest
    cases request with
    | login nick password token => exact h.login_right hsha256 hrequest
    | logout token => trivial
    | subscribe nick password draws => trivial
    | changePassword token old new confirm draws => trivial

end Users

namespace Sample

/-- Every text has the number 0, and bytes are decoded one by one. -/
def latinPlatform : Platform where
  hash _ := 0
  utf8 bs := String.ofList (bs.map fun b => Char.ofNat b.toNat)
  zone := .utc

theorem latin_injective : Function.Injective latinPlatform.utf8 := by
  have hcode : ∀ n < 256, (Char.ofNat n).toNat = n := by decide +kernel
  have hchar : Function.Injective fun b : UInt8 => Char.ofNat b.toNat := by
    intro b c h
    have hnumbers := congrArg Char.toNat h
    rw [hcode _ b.toNat_lt, hcode _ c.toNat_lt] at hnumbers
    exact UInt8.toNat_inj.mp hnumbers
  intro bs cs h
  exact List.map_injective_iff.mpr hchar (String.ofList_injective h)

def userKey : OwnerKey where
  privateKey := 1
  publicKey := ElGamalAsymKeyFactory.G
  valid := ElGamalSigner.modPow_G_one

def userDraws (token : String) : UserDraws where
  id := "0001"
  salt := [7]
  now := 0
  key := userKey
  nonce _ := 1
  token := token

end Sample

namespace Users

/-- Where nobody else is stored, a nickname finds its own user. -/
theorem findsOwn_of_nicks (h : s.users.map User.nick = [some nick]) : FindsOwn db s nick := by
  intro u hu
  have hmem := List.mem_map_of_mem (f := User.nick) (Comparison.mem_findAllByAttribute.mp hu).1
  rw [h] at hmem
  exact List.mem_singleton.mp hmem

theorem login_right_of_met_changed :
    let m := recorded Sample.derby Sample.latinPlatform id
    ∀ t ∈ m.trace m.init [.subscribe "alice" "wonder" (Sample.userDraws "1"),
        .changePassword (some "1") "wonder" "land" "land" (Sample.userDraws "2"),
        .login "alice" "land" "3", .login "alice" "wonder" "4"],
      Right Sample.derby Sample.latinPlatform id t.1.1 t.1.2 t.2 := by
  intro m
  let s₁ := m.next m.init (.subscribe "alice" "wonder" (Sample.userDraws "1"))
  let s₂ := m.next s₁ (.changePassword (some "1") "wonder" "land" "land" (Sample.userDraws "2"))
  let s₃ := m.next s₂ (.login "alice" "land" "3")
  have hdistinguished : ∀ s nick password, Distinguished Sample.latinPlatform id s nick password :=
    fun _ _ _ _ _ _ _ _ htexts => Sample.latin_injective htexts
  have hfree : Free .empty "alice" := ⟨by decide, by decide, List.forall_mem_nil _⟩
  have hwonder : Readable (loginForm "alice" "wonder") := by decide
  have hland : Readable (loginForm "alice" "land") := by decide
  have hchange : Readable (passwordForm "wonder" "land" "land") := by decide
  have hlogin : SimpleAuthentifier.getLogin s₁.1.tokens (some "1") = some "alice" := by
    decide +kernel
  have hfirst : FindsOwn Sample.derby s₁.1 "alice" := findsOwn_of_nicks (by decide +kernel)
  have hsecond : FindsOwn Sample.derby s₂.1 "alice" := findsOwn_of_nicks (by decide +kernel)
  have hthird : FindsOwn Sample.derby s₃.1 "alice" := findsOwn_of_nicks (by decide +kernel)
  have hmine : ∀ nick, SimpleAuthentifier.getLogin s₁.1.tokens (some "1") = some nick →
      FindsOwn Sample.derby s₁.1 nick := by
    intro nick hnick
    rw [hlogin] at hnick
    exact Option.some.inj hnick ▸ hfirst
  refine login_right_of_met Function.injective_id _ ?_
  simp only [Machine.trace_cons, Machine.trace_nil, List.forall_mem_cons]
  exact ⟨⟨hwonder, Or.inr hfree⟩, ⟨hchange, Or.inr hmine⟩,
    ⟨hland, Or.inr ⟨hsecond, hdistinguished _ _ _⟩⟩,
    ⟨hwonder, Or.inr ⟨hthird, hdistinguished _ _ _⟩⟩, List.forall_mem_nil _⟩

/-- A password is cut at its separator, when it is set and when it is sent. -/
theorem password_cut :
    let m := recorded Sample.derby Sample.latinPlatform id
    Function.Injective (id : List UInt8 → List UInt8) ∧
      ∃ t ∈ m.trace m.init [.subscribe "alice" "a=b" (Sample.userDraws "1"),
        .login "alice" "a" "2"], ¬ Right Sample.derby Sample.latinPlatform id t.1.1 t.1.2 t.2 := by
  intro m
  refine ⟨Function.injective_id, _,
    m.mem_trace_last m.init [.subscribe "alice" "a=b" (Sample.userDraws "1")]
    (.login "alice" "a" "2"), fun hright => ?_⟩
  have hset : (m.exec m.init [.subscribe "alice" "a=b" (Sample.userDraws "1")]).2 "alice" =
      some "a=b" := by
    decide +kernel
  have hcut := hright.mp ⟨_, rfl⟩
  rw [hset] at hcut
  exact absurd hcut (by decide)

end Users

end Sxp
