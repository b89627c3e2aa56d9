-- SUMMARY: Sessions over all runs: for whom a token acts, and which users are stored until somebody deletes them.
import Sxp.Base.Since
import Sxp.Controller.Passwords

/-!
# Sessions

The handlers of all controllers take a request to be of the user whom the nickname and the password
behind its token find. The authentifier keeps both as they were when the token was given, whatever
becomes of the user. Everybody who is logged in can delete everybody.
-/

namespace Sxp

/-- `SimpleAuthentifier.getPassword`. -/
def SimpleAuthentifier.getPassword (tokens : HashMap String Logins) (token : Option String) :
    Option String :=
  token.bind fun token => (tokens.get token).map Logins.password

/-- A request on users, or the deletion of one. -/
inductive SessionRequest where
  | users (request : UsersRequest)
  | delete (id : String) (token : Option String)

inductive SessionAnswer where
  | users (answer : UsersAnswer)
  | deleted (done : Bool)

/-- What never changes about a user. -/
structure UserIdentity where
  id : Option String
  nick : Option String
  createdAt : Option Int
  keys : Option ElGamalKeyEntity
deriving DecidableEq

def User.identity (u : User) : UserIdentity :=
  { id := u.id, nick := u.nick, createdAt := u.createdAt, keys := u.keys }

namespace Users

open SimpleAuthentifier

section

variable (db : Comparison) (platform : Platform) (sha256 : List UInt8 → List UInt8)

/-! ## The handlers -/

/-- The user of a request, as the handlers look it up. -/
def currentUser (s : UserState) (token : Option String) : Except JavaException (Option User) :=
  match getPassword s.tokens token with
  | some password => getUser db platform sha256 s.users (getLogin s.tokens token) password
  | none =>
      if findAllByNick db s.users (getLogin s.tokens token) = [] then .ok none
        else .error .nullPointer

/-- `delete`. All rows that were read on the way have to be valid, and nothing can be removed that
is not there. -/
def delete (s : UserState) (id : String) (token : Option String) :
    UserState × Except JavaException Bool :=
  match currentUser db platform sha256 s token with
  | .error e => (s, .error e)
  | .ok none => (s, .ok false)
  | .ok (some _) =>
      match db.findOneById User.id s.users (some id) with
      | none => (s, .ok false)
      | some us =>
          if (us :: findAllByNick db s.users (getLogin s.tokens token)).all
            UserValidator.validate then
            ({ s with users := s.users.eraseP fun u => db.holds u.id (some id) }, .ok true)
          else (s, .ok false)

/-- After a deletion no password is set for the nickname. -/
def forget (s : UserState) (last : LastSet) (id : String) : Except JavaException Bool → LastSet
  | .ok true =>
      match (db.findOneById User.id s.users (some id)).bind User.nick with
      | some nick => Function.update last nick none
      | none => last
  | _ => last

/-- The requests, with the passwords last set. -/
def sessions : Machine (UserState × LastSet) SessionRequest
    (Except JavaException SessionAnswer) where
  init := (.empty, fun _ => none)
  step s
    | .users request =>
        let (s', answer) := (recorded db platform sha256).step s request
        (s', answer.map .users)
    | .delete id token =>
        let (s', answer) := delete db platform sha256 s.1 id token
        ((s', forget db s.1 s.2 id answer), answer.map .deleted)

/-- The state after a run. -/
def run (h : List SessionRequest) : UserState × LastSet :=
  (sessions db platform sha256).exec (.empty, fun _ => none) h

/-! ## The past of a run -/

/-- The request is answered with a token. -/
def Answered (s : UserState) (request : UsersRequest) : Prop :=
  ∃ t, (handle db platform sha256 s request).2 = .ok (.token t)

/-- The request puts the nickname and the password behind the token. A change of the password does
so before the user is stored. -/
def Opens (s : UserState) (token nick password : String) : SessionRequest → Prop
  | .users (.login nick' password' token') =>
      token' = token ∧ nickAndPassword (form (loginForm nick' password')) = .ok (nick, password) ∧
        Answered db platform sha256 s (.login nick' password' token')
  | .users (.subscribe nick' password' draws) =>
      draws.token = token ∧ nickAndPassword (form (loginForm nick' password')) =
        .ok (nick, password) ∧ Answered db platform sha256 s (.subscribe nick' password' draws)
  | .users (.changePassword token' old new confirm draws) =>
      draws.token = token ∧ ∃ old' u,
        passwords (form (passwordForm old new confirm)) = .ok (old', password, password) ∧
        getUser db platform sha256 s.users (getLogin s.tokens token') old' = .ok (some u) ∧
        u.nick = some nick
  | _ => False

/-- The session with the token is open, for the nickname and the password. -/
def Open (token nick password : String) : List SessionRequest → Prop :=
  Machine.Since (fun h e =>
    Opens db platform sha256 (run db platform sha256 h).1 token nick password e)
    fun h e => e ≠ .users (.logout (some token)) ∧
      ∀ nick password, ¬ Opens db platform sha256 (run db platform sha256 h).1 token nick password e

/-- The request stores a new user. -/
def Stores (s : UserState) (i : UserIdentity) : SessionRequest → Prop
  | .users (.subscribe nick' password' draws) =>
      Answered db platform sha256 s (.subscribe nick' password' draws) ∧
        ∃ nick password, nickAndPassword (form (loginForm nick' password')) = .ok (nick, password) ∧
          3 ≤ Text.utf16Length nick ∧ Text.utf16Length nick ≤ 64 ∧
          i = { id := some draws.id, nick := some nick, createdAt := some draws.now,
                keys := some draws.key.entity }
  | _ => False

/-- Somebody who is logged in deletes the user with the id. -/
def Deletes (s : UserState) (id : Option String) : SessionRequest → Prop
  | .delete id' token =>
      (∃ us, db.findOneById User.id s.users (some id') = some us ∧ us.id = id) ∧
        ∃ u, currentUser db platform sha256 s token = .ok (some u)
  | _ => False

/-- The user is stored. -/
def Stored (s : UserState) (i : UserIdentity) : Prop := ∃ u ∈ s.users, u.identity = i

/-- What a request has to meet. -/
def SessionMet (s : UserState) : SessionRequest → Prop
  | .users request => Met db platform sha256 s request
  | .delete _ _ => True

/-- The id that a subscription draws is that of nobody, as the database ensures. -/
def FreshId (s : UserState) : SessionRequest → Prop
  | .users (.subscribe _ _ draws) => ∀ u ∈ s.users, u.id ≠ some draws.id
  | _ => True

end

variable {db : Comparison} {platform : Platform} {sha256 : List UInt8 → List UInt8} {s : UserState}
  {last : LastSet} {u : User} {token nick password : String}

theorem next_users (s : UserState × LastSet) (request : UsersRequest) :
    ((sessions db platform sha256).next s (.users request)).1 =
    (handle db platform sha256 s.1 request).1 := rfl

theorem next_delete (s : UserState × LastSet) (id : String) (token : Option String) :
    ((sessions db platform sha256).next s (.delete id token)).1 =
    (delete db platform sha256 s.1 id token).1 := rfl

/-! ## Who gets a token -/

theorem login_cases (s : UserState) (nick' password' token' : String) :
    (¬ Answered db platform sha256 s (.login nick' password' token') ∧
      (handle db platform sha256 s (.login nick' password' token')).1 = s) ∨
    ∃ nick password u, nickAndPassword (form (loginForm nick' password')) = .ok (nick, password) ∧
      handle db platform sha256 s (.login nick' password' token') =
        ({ s with tokens := getToken s.tokens token' (some nick) password },
          .ok (.token { token := token', userid := User.id u })) := by
  simp only [Answered, handle, login]
  cases nickAndPassword (form (loginForm nick' password')) with
  | error e => exact Or.inl ⟨(by rintro ⟨_, ht⟩; cases ht), rfl⟩
  | ok texts =>
      simp only [Except.ok_bind]
      cases getUser db platform sha256 s.users (some texts.1) texts.2 with
      | error e => exact Or.inl ⟨(by rintro ⟨_, ht⟩; cases ht), rfl⟩
      | ok found =>
          cases found with
          | none => exact Or.inl ⟨(by rintro ⟨_, ht⟩; cases ht), rfl⟩
          | some u => exact Or.inr ⟨texts.1, texts.2, u, rfl, rfl⟩

theorem subscribe_cases (s : UserState) (nick' password' : String) (draws : UserDraws) :
    (¬ Answered db platform sha256 s (.subscribe nick' password' draws) ∧
      (handle db platform sha256 s (.subscribe nick' password' draws)).1 = s) ∨
    ∃ nick password u, nickAndPassword (form (loginForm nick' password')) = .ok (nick, password) ∧
      CryptoUserManagerDecorator.parse platform sha256 draws.nonce
      (newUser draws nick password) = .ok u ∧
      handle db platform sha256 s (.subscribe nick' password' draws) =
        ({ users := if UserValidator.validate u then s.users ++ [u] else s.users,
           tokens := getToken s.tokens draws.token (some nick) password },
          .ok (.token { token := draws.token, userid := u.id })) := by
  simp only [Answered, handle, subscribe]
  cases nickAndPassword (form (loginForm nick' password')) with
  | error e => exact Or.inl ⟨(by rintro ⟨_, ht⟩; cases ht), rfl⟩
  | ok texts =>
      simp only [Except.ok_bind]
      cases hparse : CryptoUserManagerDecorator.parse platform sha256 draws.nonce
        (newUser draws texts.1 texts.2) with
      | error e => exact Or.inl ⟨(by rintro ⟨_, ht⟩; cases ht), rfl⟩
      | ok u => exact Or.inr ⟨texts.1, texts.2, u, rfl, hparse, rfl⟩

/-- A change of the password that finds its user gives out a token, and then the user is replaced or
stays. -/
theorem changePassword_tokens (s : UserState) (token' : Option String) (old new confirm : String)
    (draws : UserDraws) :
    ((∀ password old' u, passwords (form (passwordForm old new confirm)) = .ok (old',
        password, password) →
        getUser db platform sha256 s.users (getLogin s.tokens token') old' ≠ .ok (some u)) ∧
      (handle db platform sha256 s (.changePassword token' old new confirm draws)).1 = s) ∨
    ∃ old' password u, passwords (form (passwordForm old new confirm)) = .ok (old',
      password, password) ∧
      getUser db platform sha256 s.users (getLogin s.tokens token') old' = .ok (some u) ∧
      (handle db platform sha256 s (.changePassword token' old new confirm draws)).1.tokens =
        getToken s.tokens draws.token u.nick password := by
  simp only [handle, changePassword]
  cases passwords (form (passwordForm old new confirm)) with
  | error e => exact Or.inl ⟨fun _ _ _ hread => (by cases hread), rfl⟩
  | ok texts =>
      obtain ⟨old', new', confirm'⟩ := texts
      dsimp only
      split
      · rename_i hne
        refine Or.inl ⟨fun password old'' u hread => ?_, rfl⟩
        cases hread
        exact absurd rfl hne
      · rename_i heq
        obtain rfl : new' = confirm' := not_not.mp heq
        cases hfound : getUser db platform sha256 s.users (getLogin s.tokens token') old' with
        | error e =>
            refine Or.inl ⟨fun password old'' u hread hfound' => ?_, rfl⟩
            cases hread
            cases hfound.symm.trans hfound'
        | ok found =>
            cases found with
            | none =>
                refine Or.inl ⟨fun password old'' u hread hfound' => ?_, rfl⟩
                cases hread
                cases hfound.symm.trans hfound'
            | some u =>
                refine Or.inr ⟨old', new', u, rfl, hfound, ?_⟩
                dsimp only
                split
                · rfl
                · split <;> rfl

/-- Which users a deletion leaves: one is removed, or all stay. -/
theorem delete_cases (s : UserState) (id : String) (token : Option String) :
    (delete db platform sha256 s id token = (s, (delete db platform sha256 s id token).2) ∧
      (delete db platform sha256 s id token).2 ≠ .ok true) ∨
    ∃ u us, currentUser db platform sha256 s token = .ok (some u) ∧
      db.findOneById User.id s.users (some id) = some us ∧
      delete db platform sha256 s id token =
      ({ s with users := s.users.eraseP fun u => db.holds u.id (some id) }, .ok true) := by
  unfold delete
  split
  · exact Or.inl ⟨rfl, by simp⟩
  · exact Or.inl ⟨rfl, by simp⟩
  · rename_i u hcurrent
    split
    · exact Or.inl ⟨rfl, by simp⟩
    · rename_i us hus
      split
      · exact Or.inr ⟨u, us, hcurrent, hus, rfl⟩
      · exact Or.inl ⟨rfl, by simp⟩

/-! ## Which sessions are open -/

/-- What a request does to the tokens: it opens one session, ends one, or leaves them. -/
theorem tokens_cases (s : UserState × LastSet) (e : SessionRequest) :
    (∃ t n p, (∀ token nick password,
        Opens db platform sha256 s.1 token nick password e ↔ token = t ∧ nick = n ∧ password = p) ∧
      (∀ token, e ≠ .users (.logout token)) ∧
      ((sessions db platform sha256).next s e).1.tokens = getToken s.1.tokens t (some n) p) ∨
    (∀ token nick password, ¬ Opens db platform sha256 s.1 token nick password e) ∧
      ((∃ token, e = .users (.logout token) ∧
          ((sessions db platform sha256).next s e).1.tokens = deleteToken s.1.tokens token) ∨
        (∀ token, e ≠ .users (.logout token)) ∧
        ((sessions db platform sha256).next s e).1.tokens = s.1.tokens) := by
  cases e with
  | users request =>
      rw [next_users]
      cases request with
      | login nick' password' token' =>
          rcases @login_cases db platform sha256 s.1 nick' password' token' with
            ⟨hnone, hsame⟩ | ⟨n, p, u, hread, hhandle⟩
          · rw [hsame]
            exact Or.inr ⟨fun _ _ _ hopens => hnone hopens.2.2, Or.inr ⟨by simp, rfl⟩⟩
          · have hanswered : Answered db platform sha256 s.1 (.login nick' password' token') :=
              ⟨_, congrArg Prod.snd hhandle⟩
            rw [hhandle]
            refine Or.inl ⟨token', n, p, fun token nick password => ?_, by simp, rfl⟩
            simp only [Opens, hread, hanswered, and_true, Except.ok.injEq, Prod.mk.injEq, eq_comm]
      | logout token => exact Or.inr ⟨fun _ _ _ hopens => hopens, Or.inl ⟨token, rfl, rfl⟩⟩
      | subscribe nick' password' draws =>
          rcases @subscribe_cases db platform sha256 s.1 nick' password' draws with
            ⟨hnone, hsame⟩ | ⟨n, p, u, hread, -, hhandle⟩
          · rw [hsame]
            exact Or.inr ⟨fun _ _ _ hopens => hnone hopens.2.2, Or.inr ⟨by simp, rfl⟩⟩
          · have hanswered : Answered db platform sha256 s.1 (.subscribe nick' password' draws) :=
              ⟨_, congrArg Prod.snd hhandle⟩
            rw [hhandle]
            refine Or.inl ⟨draws.token, n, p, fun token nick password => ?_, by simp, rfl⟩
            simp only [Opens, hread, hanswered, and_true, Except.ok.injEq, Prod.mk.injEq, eq_comm]
      | changePassword token' old new confirm draws =>
          rcases @changePassword_tokens db platform sha256 s.1 token' old new confirm draws with
            ⟨hnone, hsame⟩ | ⟨old', p, u, hread, hfound, htokens⟩
          · rw [hsame]
            refine Or.inr ⟨?_, Or.inr ⟨by simp, rfl⟩⟩
            rintro token nick password ⟨-, old', u, hread, hfound, -⟩
            exact hnone password old' u hread hfound
          · obtain ⟨-, ⟨n, hnick⟩, -⟩ := mem_findAllByNick (mem_of_getUser hfound)
            rw [htokens, hnick]
            refine Or.inl ⟨draws.token, n, p, fun token nick password => ?_, by simp, rfl⟩
            simp only [Opens, hread]
            constructor
            · rintro ⟨rfl, old'', u', htexts, hfound', hnick'⟩
              obtain ⟨rfl, rfl, -⟩ := Prod.mk.inj (Except.ok.inj htexts)
              cases hfound.symm.trans hfound'
              exact ⟨rfl, Option.some.inj (hnick'.symm.trans hnick), rfl⟩
            · rintro ⟨rfl, rfl, rfl⟩
              exact ⟨rfl, old', u, rfl, hfound, hnick⟩
  | delete id token =>
      rw [next_delete]
      refine Or.inr ⟨fun _ _ _ hopens => hopens, Or.inr ⟨by simp, ?_⟩⟩
      rcases @delete_cases db platform sha256 s.1 id token with ⟨hsame, -⟩ | ⟨u, us, -, -, hdelete⟩
      · rw [hsame]
      · rw [hdelete]

theorem next_tokens {s : UserState × LastSet} {e : SessionRequest} :
    ((sessions db platform sha256).next s e).1.tokens.get token =
      some { login := some nick, password } ↔ Opens db platform sha256 s.1 token nick password e ∨
        s.1.tokens.get token = some { login := some nick, password } ∧
          e ≠ .users (.logout (some token)) ∧
          ∀ nick password, ¬ Opens db platform sha256 s.1 token nick password e := by
  rcases @tokens_cases db platform sha256 s e with ⟨t, n, p, hopens, hlogout, htokens⟩ |
    ⟨hnone, ⟨token', rfl, htokens⟩ | ⟨hlogout, htokens⟩⟩
  · rw [htokens, getToken, HashMap.get_put]
    simp only [hopens, beq_iff_eq]
    by_cases htoken : token = t
    · simp [htoken, eq_comm]
    · simp [htoken, hlogout]
  · rw [htokens]
    cases token' with
    | none => simp [deleteToken, hnone]
    | some t =>
        rw [deleteToken, HashMap.get_remove]
        by_cases htoken : token = t
        · simp [htoken, hnone]
        · simp [htoken, hnone, Ne.symm htoken]
  · rw [htokens]
    simp [hnone, hlogout]

/-- What the authentifier keeps under a token is that of the open session. -/
theorem run_tokens {h : List SessionRequest} :
    (run db platform sha256 h).1.tokens.get token = some { login := some nick, password } ↔
      Open db platform sha256 token nick password h :=
  (sessions db platform sha256).exec_iff_since
    (P := fun s => s.1.tokens.get token = some { login := some nick, password }) (by
      simp [UserState.empty, HashMap.get])
    (fun _ _ => next_tokens) h

/-! ## For whom a token acts -/

theorem currentUser_eq_some :
    currentUser db platform sha256 s (some token) = .ok (some u) ↔
      ∃ nick password, s.tokens.get token = some { login := some nick, password } ∧
        getUser db platform sha256 s.users (some nick) password = .ok (some u) := by
  rw [currentUser, getPassword, getLogin, Option.bind_some, Option.bind_some]
  cases htoken : s.tokens.get token with
  | none =>
      refine iff_of_false (fun hfound => ?_) (by simp)
      dsimp only [Option.map_none, Option.bind_none] at hfound
      split at hfound <;> cases hfound
  | some l =>
      obtain ⟨login, password⟩ := l
      simp only [Option.map_some, Option.bind_some, Option.some.injEq, Logins.mk.injEq]
      constructor
      · intro hfound
        obtain ⟨-, -, nick, hlogin⟩ := mem_findAllByNick (mem_of_getUser hfound)
        exact ⟨nick, password, ⟨hlogin, rfl⟩, hlogin ▸ hfound⟩
      · rintro ⟨nick, password', ⟨rfl, rfl⟩, hfound⟩
        exact hfound

/-- Where the digests are distinguished, the password last set is the only one that finds the
user. -/
theorem Kept.finds_iff (hsha256 : Function.Injective sha256) (h : Kept sha256 s last)
    (hown : FindsOwn db s nick) (hdistinguished : Distinguished platform sha256 s nick password) :
    (∃ u, getUser db platform sha256 s.users (some nick) password = .ok (some u)) ↔
    last nick = some password := by
  rcases h.findAllByNick hown with ⟨hlast, hnobody⟩ | ⟨u, password', hone, hlast, hdigest⟩
  · rw [getUser_of_nil hnobody, hlast]
    simp
  · rw [getUser_of_one hone hdigest, hlast, Option.some.injEq]
    obtain ⟨hu, hnick⟩ := hown.mem_iff.mp (hone ▸ List.mem_singleton_self u)
    constructor
    · rintro ⟨v, hv⟩
      split at hv
      · rename_i htexts
        exact ((getHash_inj hsha256).mp (hdistinguished u hu hnick _ hdigest htexts.symm)).symm
      · cases hv
    · rintro rfl
      exact ⟨u, by rw [if_pos rfl]⟩

/-- The user found under an id, and the rows around it. -/
theorem find_split {users : List User} {id : String} {us : User}
    (hfind : db.findOneById User.id users (some id) = some us) :
    ∃ before after, users = before ++ us :: after ∧
      users.eraseP (fun u => db.holds u.id (some id)) = before ++ after := by
  obtain ⟨hid, before, after, rfl, hbefore⟩ := List.find?_eq_some_iff_append.mp hfind
  refine ⟨before, after, rfl, ?_⟩
  rw [List.eraseP_append_right _ (fun u hu => by simpa using hbefore u hu), List.eraseP_cons, hid]
  rfl

/-- After the user is gone, nobody has the nickname. -/
theorem Kept.remove {before after : List User} {us : User} (h : Kept sha256 s last)
    (husers : s.users = before ++ us :: after) (hnick : us.nick = some nick) :
    Kept sha256 { s with users := before ++ after } (Function.update last nick none) := by
  have hsub : (before ++ after).Sublist s.users :=
    husers ▸ List.Sublist.append_left (List.sublist_cons_self us after) before
  have hne : ∀ v ∈ before ++ after, v.nick ≠ some nick := by
    have hnicks := h.nicks
    rw [husers, List.pairwise_append, List.pairwise_cons] at hnicks
    intro v hv hvnick
    rcases List.mem_append.mp hv with hbefore | hafter
    · exact hnicks.2.2 v hbefore us List.mem_cons_self (hvnick.trans hnick.symm)
    · exact hnicks.2.1.1 v hafter (hnick.trans hvnick.symm)
  refine ⟨h.nicks.sublist hsub, ?_, ?_⟩
  · intro v hv
    obtain ⟨nick', password, hnick', hlast, hdigest⟩ := h.stored v (hsub.subset hv)
    have hother : nick' ≠ nick := by
      rintro rfl
      exact hne v hv hnick'
    exact ⟨nick', password, hnick', by rw [Function.update_of_ne hother, hlast], hdigest⟩
  · intro nick' password hlast
    have hother : nick' ≠ nick := by
      rintro rfl
      rw [Function.update_self] at hlast
      cases hlast
    rw [Function.update_of_ne hother] at hlast
    obtain ⟨hnick', hpassword, v, hv, hvnick⟩ := h.set nick' password hlast
    rw [husers] at hv
    have hvus : v ≠ us := by
      rintro rfl
      exact hother (Option.some.inj (hvnick.symm.trans hnick))
    refine ⟨hnick', hpassword, v, ?_, hvnick⟩
    rcases List.mem_append.mp hv with hbefore | hcons
    · exact List.mem_append_left _ hbefore
    · exact List.mem_append_right _ ((List.mem_cons.mp hcons).resolve_left hvus)

theorem forget_of_ne {id : String} {answer : Except JavaException Bool} (hne : answer ≠ .ok true) :
    forget db s last id answer = last := by
  unfold forget
  split
  · exact absurd rfl hne
  · rfl

theorem Kept.delete (h : Kept sha256 s last) (id : String) (token : Option String) :
    Kept sha256 ((sessions db platform sha256).next (s, last) (.delete id token)).1
      ((sessions db platform sha256).next (s, last) (.delete id token)).2 := by
  simp only [Machine.next, sessions]
  rcases @delete_cases db platform sha256 s id token with
    ⟨hsame, hanswer⟩ | ⟨u, us, -, hfind, hdelete⟩
  · rw [forget_of_ne hanswer, hsame]
    exact h
  · obtain ⟨before, after, husers, herase⟩ := find_split hfind
    obtain ⟨nick, -, hnick, -, -⟩ := h.stored us (List.mem_of_find?_eq_some hfind)
    rw [hdelete, herase]
    simp only [forget, hfind, Option.bind_some, hnick]
    exact h.remove husers hnick

theorem kept_run {h : List SessionRequest}
    (hmet : ∀ t ∈ (sessions db platform sha256).trace (sessions db platform sha256).init h,
      SessionMet db platform sha256 t.1.1 t.2) :
    Kept sha256 (run db platform sha256 h).1 (run db platform sha256 h).2 := by
  refine (sessions db platform sha256).exec_preserves_of_trace (P := fun s => Kept sha256 s.1 s.2)
    (Q := fun s e => SessionMet db platform sha256 s.1 e) ?_ kept_empty hmet
  intro s e h he
  cases e with
  | users request => exact h.next he
  | delete id token => exact h.delete id token

/-- In a run whose requests all meet the condition, a token acts for the user with a nickname
exactly if its session is open for that nickname and the password it was opened with is the one last
set. A new password thus stops all sessions that were opened with another one, and an old one that
is set again revives them. -/
theorem session_acts_iff (hsha256 : Function.Injective sha256) (h : List SessionRequest)
    (hmet : ∀ t ∈ (sessions db platform sha256).trace (sessions db platform sha256).init h,
      SessionMet db platform sha256 t.1.1 t.2)
    (token nick : String)
    (hown : ∀ nick password, Open db platform sha256 token nick password h →
      FindsOwn db (run db platform sha256 h).1 nick)
    (hdistinguished : ∀ password, Open db platform sha256 token nick password h →
      Distinguished platform sha256 (run db platform sha256 h).1 nick password) :
    (∃ u, currentUser db platform sha256 (run db platform sha256 h).1 (some token) = .ok (some u) ∧
      u.nick = some nick) ↔
      ∃ password, Open db platform sha256 token nick password h ∧
      (run db platform sha256 h).2 nick = some password := by
  simp only [currentUser_eq_some, run_tokens]
  constructor
  · rintro ⟨u, ⟨nick', password, hopen, hfound⟩, hnick⟩
    have hfinds := hown nick' password hopen
    obtain ⟨-, hnick'⟩ := hfinds.mem_iff.mp (mem_of_getUser hfound)
    obtain rfl : nick' = nick := Option.some.inj (hnick'.symm.trans hnick)
    have hlast := (kept_run hmet).finds_iff hsha256 hfinds (hdistinguished password hopen)
    exact ⟨password, hopen, hlast.mp ⟨u, hfound⟩⟩
  · rintro ⟨password, hopen, hlast⟩
    have hfinds := hown nick password hopen
    obtain ⟨u, hfound⟩ := ((kept_run hmet).finds_iff hsha256 hfinds
      (hdistinguished password hopen)).mpr hlast
    exact ⟨u, ⟨nick, password, hopen, hfound⟩, (hfinds.mem_iff.mp (mem_of_getUser hfound)).2⟩

theorem distinguished_latin (s : UserState) (nick password : String) :
    Distinguished Sample.latinPlatform id s nick password :=
  fun _ _ _ _ _ htexts => Sample.latin_injective htexts

/-- The session of a subscription, after its password was changed. -/
theorem session_acts_iff_changed :
    let h := [.users (.subscribe "alice" "wonder" (Sample.userDraws "1")),
      .users (.changePassword (some "1") "wonder" "land" "land" (Sample.userDraws "2"))]
    Open Sample.derby Sample.latinPlatform id "1" "alice" "wonder" h ∧
      ¬ ∃ u, currentUser Sample.derby Sample.latinPlatform id
        (run Sample.derby Sample.latinPlatform id h).1 (some "1") = .ok (some u) ∧
        u.nick = some "alice" := by
  intro h
  have hkept : ((run Sample.derby Sample.latinPlatform id h).1.tokens.get "1").map (fun l =>
      (l.login, l.password)) = some (some "alice", "wonder") := by decide +kernel
  have htoken : (run Sample.derby Sample.latinPlatform id h).1.tokens.get "1" =
      some { login := some "alice", password := "wonder" } := by
    obtain ⟨l, hl, htexts⟩ := Option.map_eq_some_iff.mp hkept
    cases l
    cases htexts
    exact hl
  have hlast : (run Sample.derby Sample.latinPlatform id h).2 "alice" = some "land" := by
    decide +kernel
  have hfree : Free .empty "alice" := ⟨by decide, by decide, List.forall_mem_nil _⟩
  have hwonder : Readable (loginForm "alice" "wonder") := by decide
  have hchange : Readable (passwordForm "wonder" "land" "land") := by decide
  have hlogin : getLogin (run Sample.derby Sample.latinPlatform id (h.take 1)).1.tokens (some "1") =
      some "alice" := by
    decide +kernel
  have hfirst : FindsOwn Sample.derby
      (run Sample.derby Sample.latinPlatform id (h.take 1)).1 "alice" :=
    findsOwn_of_nicks (by decide +kernel)
  have hsecond : FindsOwn Sample.derby (run Sample.derby Sample.latinPlatform id h).1 "alice" :=
    findsOwn_of_nicks (by decide +kernel)
  refine ⟨run_tokens.mp htoken, ?_⟩
  rw [session_acts_iff Function.injective_id h ?_ "1" "alice" ?_ fun _ _ =>
    distinguished_latin _ _ _]
  · rintro ⟨password, hopen, hset⟩
    obtain rfl : "wonder" = password :=
      congrArg Logins.password (Option.some.inj (htoken.symm.trans (run_tokens.mpr hopen)))
    exact absurd (hlast.symm.trans hset) (by decide)
  · simp only [h, Machine.trace_cons, Machine.trace_nil, List.forall_mem_cons]
    refine ⟨⟨hwonder, Or.inr hfree⟩, ⟨hchange, Or.inr fun nick hnick => ?_⟩, List.forall_mem_nil _⟩
    exact Option.some.inj (hlogin.symm.trans hnick) ▸ hfirst
  · intro nick password hopen
    obtain rfl : "alice" = nick :=
      Option.some.inj (congrArg Logins.login
        (Option.some.inj (htoken.symm.trans (run_tokens.mpr hopen))))
    exact hsecond

/-! ## Which users are stored -/

/-- Every stored user is valid, and no two have one id. -/
structure Rows (s : UserState) : Prop where
  valid : ∀ u ∈ s.users, UserValidator.validate u = true
  ids : s.users.Pairwise fun u v => u.id ≠ v.id

theorem rows_empty : Rows .empty where
  valid := List.forall_mem_nil _
  ids := List.Pairwise.nil

/-- What is stored for a change of the password is the user with another digest. -/
theorem identity_of_parse {draws : UserDraws} {u' : User}
    (hparse : CryptoUserManagerDecorator.parse platform sha256 draws.nonce
      (withPassword draws password u) = .ok u') :
    u'.identity = u.identity ∧
    (UserValidator.validate u = true → UserValidator.validate u' = true) := by
  obtain ⟨message, signature, -, rfl⟩ := parse_eq_ok hparse
  refine ⟨rfl, ?_⟩
  simp only [UserValidator.validate, withPassword, Bool.and_eq_true, Option.isSome_some, and_true]
  tauto

theorem newUser_of_parse {draws : UserDraws}
    (hparse : CryptoUserManagerDecorator.parse platform sha256 draws.nonce
      (newUser draws nick password) = .ok u) :
    u.identity = { id := some draws.id, nick := some nick, createdAt := some draws.now,
                   keys := some draws.key.entity } ∧
      (UserValidator.validate u = true ↔
        3 ≤ Text.utf16Length nick ∧ Text.utf16Length nick ≤ 64) := by
  obtain ⟨message, signature, -, rfl⟩ := parse_eq_ok hparse
  exact ⟨rfl, by simp [UserValidator.validate, newUser]⟩

/-- A request on users adds a user, replaces one by the same with another digest, or leaves all. -/
theorem users_cases (s : UserState) (request : UsersRequest) :
    (∃ u i, (handle db platform sha256 s request).1.users = s.users ++ [u] ∧
      UserValidator.validate u = true ∧
      u.identity = i ∧ (∀ j, Stores db platform sha256 s j (.users request) ↔ j = i) ∧
      (FreshId s (.users request) → ∀ v ∈ s.users, v.id ≠ i.id)) ∨
    (∀ i, ¬ Stores db platform sha256 s i (.users request)) ∧
      ∃ f : User → User, (handle db platform sha256 s request).1.users = s.users.map f ∧
        ∀ u ∈ s.users, (f u).identity = u.identity ∧
          (UserValidator.validate u = true → UserValidator.validate (f u) = true) := by
  have hsame : s.users = s.users.map id := (List.map_id _).symm
  cases request with
  | login nick' password' token' =>
      refine Or.inr ⟨fun _ hstores => hstores, id, ?_, fun u _ => ⟨rfl, fun h => h⟩⟩
      rcases @login_cases db platform sha256 s nick' password' token' with
        ⟨-, hstate⟩ | ⟨n, p, u, -, hhandle⟩
      · rw [hstate, List.map_id]
      · rw [hhandle, List.map_id]
  | logout token => exact Or.inr ⟨fun _ hstores => hstores, id, hsame, fun u _ => ⟨rfl, fun h => h⟩⟩
  | subscribe nick' password' draws =>
      rcases @subscribe_cases db platform sha256 s nick' password' draws with
        ⟨hnone, hstate⟩ | ⟨n, p, u, hread, hparse, hhandle⟩
      · refine Or.inr ⟨fun _ hstores => hnone hstores.1, id, ?_, fun u _ => ⟨rfl, fun h => h⟩⟩
        rw [hstate, List.map_id]
      · have hanswered : Answered db platform sha256 s (.subscribe nick' password' draws) :=
          ⟨_, congrArg Prod.snd hhandle⟩
        obtain ⟨hidentity, hvalid⟩ := newUser_of_parse hparse
        rw [hhandle]
        by_cases hu : UserValidator.validate u = true
        · refine Or.inl ⟨u, _, if_pos hu, hu, hidentity, fun j => ?_, fun hfresh => hfresh⟩
          constructor
          · rintro ⟨-, nick, password, hread', -, -, rfl⟩
            cases hread.symm.trans hread'
            rfl
          · rintro rfl
            exact ⟨hanswered, n, p, hread, (hvalid.mp hu).1, (hvalid.mp hu).2, rfl⟩
        · refine Or.inr ⟨?_, id, ?_, fun u _ => ⟨rfl, fun h => h⟩⟩
          · rintro i ⟨-, nick, password, hread', hmin, hmax, -⟩
            cases hread.symm.trans hread'
            exact hu (hvalid.mpr ⟨hmin, hmax⟩)
          · rw [List.map_id]
            exact if_neg hu
  | changePassword token' old new confirm draws =>
      rcases @changePassword_cases db platform sha256 s token'
        (form (passwordForm old new confirm)) draws with
        ⟨husers, -⟩ | ⟨old', new', u, u', tokens, t, -, hfound, hparse, hchange⟩
      · refine Or.inr ⟨fun _ hstores => hstores, id, ?_, fun u _ => ⟨rfl, fun h => h⟩⟩
        rw [List.map_id]
        exact husers
      · refine Or.inr ⟨fun _ hstores => hstores, replaced u u', by rw [handle, hchange], ?_⟩
        intro v _
        rw [replaced]
        split
        · rename_i heq
          exact heq ▸ identity_of_parse hparse
        · exact ⟨rfl, fun h => h⟩

/-- With valid users, a deletion by somebody who is logged in removes the user with the id, if there
is one. -/
theorem delete_users (hvalid : ∀ u ∈ s.users, UserValidator.validate u = true) {id : String}
    {token : Option String} (hcurrent : currentUser db platform sha256 s token = .ok (some u)) :
    (delete db platform sha256 s id token).1.users = s.users.eraseP fun u =>
    db.holds u.id (some id) := by
  unfold delete
  rw [hcurrent]
  dsimp only
  split
  · rename_i hnone
    rw [List.eraseP_of_forall_not fun v hv => List.find?_eq_none.mp hnone v hv]
  · rename_i us hus
    have hall : (us :: findAllByNick db s.users (getLogin s.tokens token)).all
        UserValidator.validate = true := by
      rw [List.all_eq_true]
      intro v hv
      rcases List.mem_cons.mp hv with rfl | hfound
      · exact hvalid v (List.mem_of_find?_eq_some hus)
      · exact hvalid v (mem_findAllByNick hfound).1
    rw [if_pos hall]

/-- Where no two users have one id, a deletion leaves all but those with the id of the user that it
finds. -/
theorem mem_eraseP_id {users : List User} (hids : users.Pairwise fun u v => u.id ≠ v.id)
    {id : String} : u ∈ users.eraseP (fun u => db.holds u.id (some id)) ↔
      u ∈ users ∧ ¬ ∃ us, db.findOneById User.id users (some id) = some us ∧ us.id = u.id := by
  cases hfind : db.findOneById User.id users (some id) with
  | none =>
      rw [List.eraseP_of_forall_not fun v hv => List.find?_eq_none.mp hfind v hv]
      simp
  | some us =>
      obtain ⟨before, after, rfl, herase⟩ := find_split hfind
      rw [List.pairwise_append, List.pairwise_cons] at hids
      obtain ⟨-, ⟨hafter, -⟩, hbefore⟩ := hids
      rw [herase, List.mem_append, List.mem_append, List.mem_cons]
      simp only [Option.some.injEq, exists_eq_left']
      constructor
      · rintro (hu | hu)
        · exact ⟨Or.inl hu, fun hid => hbefore u hu us List.mem_cons_self hid.symm⟩
        · exact ⟨Or.inr (Or.inr hu), hafter u hu⟩
      · rintro ⟨hu | rfl | hu, hne⟩
        · exact Or.inl hu
        · exact absurd rfl hne
        · exact Or.inr hu

theorem Rows.next {s : UserState × LastSet} {e : SessionRequest} (h : Rows s.1)
    (hfresh : FreshId s.1 e) : Rows ((sessions db platform sha256).next s e).1 := by
  cases e with
  | users request =>
      rw [next_users]
      rcases @users_cases db platform sha256 s.1 request with
        ⟨u, i, husers, hvalid, rfl, -, hid⟩ | ⟨-, f, husers, hf⟩
      · refine ⟨?_, ?_⟩
        · rw [husers, List.forall_mem_append]
          exact ⟨h.valid, List.forall_mem_singleton.mpr hvalid⟩
        · rw [husers, List.pairwise_append]
          refine ⟨h.ids, List.pairwise_singleton _ _, fun v hv w hw => ?_⟩
          rw [List.mem_singleton.mp hw]
          exact hid hfresh v hv
      · have hids : ∀ u ∈ s.1.users, (f u).id = u.id :=
          fun u hu => congrArg UserIdentity.id (hf u hu).1
        refine ⟨?_, ?_⟩
        · rw [husers, List.forall_mem_map]
          exact fun u hu => (hf u hu).2 (h.valid u hu)
        · rw [husers, List.pairwise_map]
          refine h.ids.imp_of_mem fun {u v} hu hv hne => ?_
          rwa [hids u hu, hids v hv]
  | delete id token =>
      rw [next_delete]
      rcases @delete_cases db platform sha256 s.1 id token with ⟨hsame, -⟩ | ⟨u, us, -, -, hdelete⟩
      · rw [hsame]
        exact h
      · rw [hdelete]
        exact ⟨fun v hv => h.valid v (List.mem_of_mem_eraseP hv), h.ids.sublist List.eraseP_sublist⟩

theorem next_stored {s : UserState × LastSet} {e : SessionRequest} {i : UserIdentity}
    (h : Rows s.1) : Stored ((sessions db platform sha256).next s e).1 i ↔
      Stores db platform sha256 s.1 i e ∨ Stored s.1 i ∧
      ¬ Deletes db platform sha256 s.1 i.id e := by
  cases e with
  | users request =>
      have hnot : ¬ Deletes db platform sha256 s.1 i.id (.users request) := fun hdeletes => hdeletes
      rw [next_users, and_iff_left hnot]
      rcases @users_cases db platform sha256 s.1 request with
        ⟨u, j, husers, -, rfl, hstores, -⟩ | ⟨hnone, f, husers, hf⟩
      · rw [Stored, husers, hstores, Stored, or_comm]
        simp only [List.mem_append, List.mem_singleton, or_and_right, exists_or, exists_eq_left]
        exact or_congr_right eq_comm
      · rw [Stored, husers, or_iff_right (hnone i), Stored]
        constructor
        · rintro ⟨v, hv, rfl⟩
          obtain ⟨u, hu, rfl⟩ := List.mem_map.mp hv
          exact ⟨u, hu, (hf u hu).1.symm⟩
        · rintro ⟨u, hu, rfl⟩
          exact ⟨f u, List.mem_map_of_mem hu, (hf u hu).1⟩
  | delete id token =>
      have hnot : ¬ Stores db platform sha256 s.1 i (.delete id token) := fun hstores => hstores
      rw [next_delete, or_iff_right hnot, Stored, Stored]
      by_cases hcurrent : ∃ u, currentUser db platform sha256 s.1 token = .ok (some u)
      · obtain ⟨w, hw⟩ := hcurrent
        rw [delete_users h.valid hw]
        simp only [mem_eraseP_id h.ids]
        constructor
        · rintro ⟨u, ⟨hu, hne⟩, rfl⟩
          exact ⟨⟨u, hu, rfl⟩, fun hdeletes => hne hdeletes.1⟩
        · rintro ⟨⟨u, hu, rfl⟩, hkept⟩
          exact ⟨u, ⟨hu, fun hfound => hkept ⟨hfound, w, hw⟩⟩, rfl⟩
      · have hkept : ¬ Deletes db platform sha256 s.1 i.id (.delete id token) :=
          fun hdeletes => hcurrent hdeletes.2
        rw [and_iff_left hkept]
        rcases @delete_cases db platform sha256 s.1 id token with ⟨hsame, -⟩ | ⟨u, us, hu, -, -⟩
        · rw [hsame]
        · exact absurd ⟨u, hu⟩ hcurrent

/-- In every run in which subscriptions draw ids that nobody has, a user is stored exactly since it
subscribed with a valid nickname and as long as nobody who was logged in has deleted it. Its
nickname and its key are those it started with; and anybody with an account can end every other
one. -/
theorem stored_iff (h : List SessionRequest)
    (hfresh : ∀ t ∈ (sessions db platform sha256).trace (sessions db platform sha256).init h,
      FreshId t.1.1 t.2)
    (i : UserIdentity) :
    Stored (run db platform sha256 h).1 i ↔
      Machine.Since (fun h e => Stores db platform sha256 (run db platform sha256 h).1 i e)
        (fun h e => ¬ Deletes db platform sha256 (run db platform sha256 h).1 i.id e) h := by
  refine (sessions db platform sha256).exec_iff_since_of_good (P := fun s =>
    Stored s.1 i) (C := fun s _ => Rows s.1)
    (by simp [Stored, UserState.empty]) (fun _ _ hrows => next_stored hrows) h ?_
  exact (sessions db platform sha256).trace_forall_of_good (C := fun s e => FreshId s.1 e)
    (fun _ _ => Rows.next) (fun _ _ hrows _ => hrows) rows_empty h hfresh

/-- Of two users, the first one deletes the second one. -/
theorem stored_iff_deleted :
    let h := [.users (.subscribe "alice" "wonder" (Sample.userDraws "1")),
      .users (.subscribe "bob" "land" { Sample.userDraws "2" with id := "0002" }),
      .delete "0002" (some "1")]
    ∀ i : UserIdentity, i.id = some "0002" →
      ¬ Stored (run Sample.derby Sample.latinPlatform id h).1 i := by
  intro h i hi
  have hfirst : (run Sample.derby Sample.latinPlatform id (h.take 1)).1.users.map User.id =
      [some "0001"] := by decide +kernel
  have hsecond : (Sample.derby.findOneById User.id
      (run Sample.derby Sample.latinPlatform id (h.take 2)).1.users
      (some "0002")).map User.id = some (some "0002") := by decide +kernel
  have hcurrent : (currentUser Sample.derby Sample.latinPlatform id
      (run Sample.derby Sample.latinPlatform id (h.take 2)).1
      (some "1")).toOption.join.isSome = true := by decide +kernel
  rw [stored_iff h ?_ i]
  · intro hsince
    obtain hstores | ⟨-, hkept⟩ := Machine.since_concat (h := h.take 2).mp hsince
    · exact hstores
    · refine hkept ⟨?_, ?_⟩
      · obtain ⟨us, hus, hid⟩ := Option.map_eq_some_iff.mp hsecond
        exact ⟨us, hus, hid.trans hi.symm⟩
      · cases hfound : currentUser Sample.derby Sample.latinPlatform id
          (run Sample.derby Sample.latinPlatform id (h.take 2)).1 (some "1") with
        | error e => simp [hfound, Except.toOption] at hcurrent
        | ok found =>
            cases found with
            | none => simp [hfound, Except.toOption] at hcurrent
            | some u => exact ⟨u, rfl⟩
  · simp only [h, Machine.trace_cons, Machine.trace_nil, List.forall_mem_cons]
    refine ⟨List.forall_mem_nil _, ?_, trivial, List.forall_mem_nil _⟩
    intro u hu
    have hid := List.mem_map_of_mem (f := User.id) hu
    change u.id ∈ (run Sample.derby Sample.latinPlatform id (h.take 1)).1.users.map User.id at hid
    rw [hfirst, List.mem_singleton] at hid
    rw [hid]
    decide

end Users

end Sxp
