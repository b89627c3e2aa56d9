-- SUMMARY: The message that ends the choice of Trent, and the key of Trent, which the signing step never changes.
import Sxp.Choice.Consent
import Sxp.Protocol.Terminal

/-!
# The end of the choice

The message that ends the choice leaves the key of Trent in the choosing step. Whatever the signing
step handles, it keeps the key that it was made with.
-/

namespace Sxp

/-! ## When the choice is over -/

namespace ProtocolChooseTrent

variable {c : ProtocolChooseTrent}

/-- The key of Trent with which the handler of a message calls `nextStep`. -/
def nextStepKey (c : ProtocolChooseTrent) (message : ChooseMessage) (senderId : Int) :
    Option ElGamalKey :=
  match message with
  | .choice publicKey =>
      match c.parties.findIdx? (fun k => k.publicKey == senderId), c.trentKey with
      | some j, some key =>
          if indexOfNull (c.hasSent 2) ≠ none ∧ publicKey = key.publicKey ∧
              indexOfNull ((c.mark 2 j).hasSent 2) = some c.N then some key
          else none
      | _, _ => none
  | _ => none

theorem onNumber_signing (n : Int) (j : Nat) : (c.onNumber n j).1.signing = c.signing := by
  have hadded := (addNumber_quiet c n j).signing_eq
  unfold onNumber
  dsimp only
  split
  · split
    · exact hadded
    · split
      · exact hadded
      · rw [choose]
        dsimp only
        split <;> exact hadded
  · exact hadded

theorem onChoice_signing (a : Int) (j : Nat) : (c.onChoice a j).signing = true ↔ c.signing = true ∨
    ∃ key, c.trentKey = some key ∧ a = key.publicKey ∧
    indexOfNull ((c.mark 2 j).hasSent 2) = some c.N := by
  unfold onChoice
  split
  · rename_i hnone
    simp [hnone, mark, setTrent]
  · rename_i key hkey
    split
    · rename_i hsame
      dsimp only
      split
      · rename_i hlast
        exact ⟨fun _ => Or.inr ⟨key, hkey, hsame, hlast⟩, fun _ => rfl⟩
      · rename_i hlast
        refine ⟨Or.inl, fun h => h.resolve_right ?_⟩
        rintro ⟨_, -, -, hlast'⟩
        exact hlast hlast'
    · rename_i hdiffers
      refine ⟨Or.inl, fun h => h.resolve_right ?_⟩
      rintro ⟨key', hkey', hsame, -⟩
      rw [hkey, Option.some.injEq] at hkey'
      exact hdiffers (hkey' ▸ hsame)

/-- The handler calls `nextStep` exactly then. -/
theorem notify_signing (c : ProtocolChooseTrent) (message : ChooseMessage) (senderId : Int) :
    (c.notify message senderId).1.signing = true ↔
      c.signing = true ∨ ∃ key, c.nextStepKey message senderId = some key := by
  unfold notify nextStepKey
  cases hj : c.parties.findIdx? (fun k => k.publicKey == senderId) with
  | none => cases message <;> simp
  | some j =>
      cases message with
      | list list2 =>
          have hsame := (onList_quiet c list2 j).signing_eq
          dsimp only
          split <;> simp [hsame]
      | number n =>
          have hsame := @onNumber_signing c n j
          dsimp only
          split <;> simp [hsame]
      | choice a =>
          by_cases hnull : indexOfNull (c.hasSent 2) = none
          · cases c.trentKey <;> simp [hnull]
          · cases hkey : c.trentKey <;> simp [hnull, onChoice_signing, hkey]

theorem nextStepKey_trentKey {message : ChooseMessage} {senderId : Int} {key : ElGamalKey}
    (h : c.nextStepKey message senderId = some key) :
    (c.notify message senderId).1.trentKey = some key := by
  unfold nextStepKey at h
  split at h
  · rename_i a
    split at h
    · rename_i j key' hj hkey
      split at h
      · rename_i hcond
        obtain ⟨hnull, hsame, hlast⟩ := hcond
        rw [Option.some.injEq] at h
        subst h
        simp only [notify, hj, onChoice, hkey]
        rw [if_pos hnull, if_pos hsame, mark_N, if_pos hlast]
        exact hkey
      · cases h
    · cases h
  · cases h

theorem resume_signing (c : ProtocolChooseTrent) : c.resume.signing = c.signing := by
  unfold resume
  split
  · rfl
  · rfl
  · unfold afterChoice
    dsimp only
    split
    · split <;> rfl
    · rfl

/-- Once everybody is marked, messages leave the key of Trent alone and end no choice. -/
theorem Agreed.notify (h : c.Agreed) (message : ChooseMessage) (senderId : Int) :
    (c.notify message senderId).1.trentKey = c.trentKey ∧
    c.nextStepKey message senderId = none := by
  have hfull := h.full
  have hsome : c.trentKey ≠ none := by
    intro hnone
    have hsame := h.trentKey
    rw [hnone] at hsame
    exact h.announced hsame.symm
  constructor
  · unfold ProtocolChooseTrent.notify
    split
    · rfl
    · rename_i j _
      cases message with
      | list list2 =>
          dsimp only
          split
          · exact (onList_quiet c list2 j).trentKey
          · rfl
      | number n =>
          have hadded := (addNumber_quiet c n j).trentKey
          dsimp only
          split
          · unfold onNumber
            dsimp only
            split
            · split
              · exact hadded
              · split
                · exact hadded
                · rw [choose]
                  dsimp only
                  split
                  · rename_i hnone
                    exact absurd (hadded.symm.trans hnone) hsome
                  · exact hadded
            · exact hadded
          · rfl
      | choice a => simp [hfull]
  · unfold nextStepKey
    split
    · split
      · simp [hfull]
      · rfl
    · rfl

/-- What is left to do after a broadcast neither. -/
theorem Sound.resume_trentKey {known : List ElGamalKey} {heard : Nat → Int → Prop}
    (h : Sound known heard c) (hsigning : c.signing = true) : c.resume.trentKey = c.trentKey := by
  unfold ProtocolChooseTrent.resume
  split
  · rfl
  · rfl
  · rename_i u calls heq
    obtain ⟨hchosen, -⟩ := h.pending u (heq ▸ List.mem_cons_self)
    have hsame := (h.agreed hsigning).trentKey
    unfold ProtocolChooseTrent.afterChoice
    dsimp only
    split
    · rename_i key hkey
      rw [show c.trentKey = some key from hkey, hchosen] at hsame
      rw [if_neg (not_not.mpr (Option.some.inj hsame))]
      rfl
    · rfl

end ProtocolChooseTrent

/-! ## Trent's key in the signing step -/

section TrentKey

variable (tools : StepTools)

namespace ProtocolResolve

theorem sendMessage_trentKey (e : Establisher) (coins : Nat) :
    (sendMessage tools e coins).1.trentKey = e.trentKey := by
  unfold sendMessage
  dsimp only
  split <;> rfl

theorem addReleased_trentKey (sigs : List (Option SigmaSignature)) (k : Nat) (e : Establisher) :
    (addReleased tools sigs k e).1.trentKey = e.trentKey := by
  fun_induction addReleased tools sigs k e with
  | case1 => rfl
  | case2 => rfl
  | case3 => rfl
  | case4 => rfl
  | case5 _ _ _ _ _ _ _ _ ih => exact ih
  | case6 => rfl
  | case7 _ _ _ _ _ _ _ _ _ _ ih => exact ih

theorem finish_trentKey (e : Establisher) : (finish tools e).1.trentKey = e.trentKey := by
  unfold finish
  split <;> rfl

theorem notify_trentKey (e : Establisher) (data : TrentMessage) (senderId : Int) :
    (notify tools e data senderId).1.trentKey = e.trentKey := by
  unfold notify
  split
  · split
    · rfl
    · dsimp only
      split
      · rfl
      · split
        · rfl
        · rfl
        · split
          · rfl
          · split
            · split
              · rfl
              · rename_i sigs _
                have hadded := addReleased_trentKey tools sigs 0
                  { e with resolver := { e.resolver with trentK := some e.trentKey } }
                split
                · rename_i heq
                  rwa [heq] at hadded
                · rename_i heq
                  rw [heq] at hadded
                  exact (finish_trentKey tools _).trans hadded
            · rfl
  · rfl

end ProtocolResolve

namespace ProtocolSign

theorem fillContent_trentKey (coins : Nat → Nat) (ks : List (ElGamalKey × Nat)) (e : Establisher)
    (content : HashMap Int String) :
    (fillContent tools coins ks e content).1.trentKey = e.trentKey := by
  induction ks generalizing e content with
  | nil => rfl
  | cons x rest ih =>
      simp only [fillContent]
      split
      · split
        · rfl
        · split
          · split
            · rfl
            · exact ih _ _
          · exact ih _ _
      · split
        · rfl
        · split
          · rfl
          · rw [ih]
            split <;> rfl

theorem sendMessage_trentKey (e : Establisher) (coins : Nat → Nat) :
    (sendMessage tools e coins).1.trentKey = e.trentKey := by
  unfold sendMessage
  split
  · exact ProtocolResolve.sendMessage_trentKey tools e (coins 0)
  · have hfill := fillContent_trentKey tools coins e.contract.parties.zipIdx e {}
    split
    · rename_i heq
      rwa [heq] at hfill
    · rename_i heq
      rw [heq] at hfill
      split <;> exact hfill

theorem storeSignature_trentKey (e : Establisher) (senderKey : ElGamalKey) (s : SigmaSignature) :
    (storeSignature tools e senderKey s).1.trentKey = e.trentKey := by
  obtain ⟨c, hc⟩ := storeSignature_contract tools e senderKey s
  rw [hc]

theorem storePromise_trentKey (e : Establisher) (k i : Nat) (text : String) :
    (storePromise tools e k i text).1.trentKey = e.trentKey := by
  unfold storePromise
  split
  · rfl
  · split
    · rfl
    · split <;> rfl

theorem verifyAndStoreSignature_trentKey (e : Establisher) (message : SignMessage)
    (senderId : Int) :
    (verifyAndStoreSignature tools e message senderId).1.trentKey = e.trentKey := by
  unfold verifyAndStoreSignature
  split
  · rfl
  · split
    · rfl
    · rfl
    · split
      · rfl
      · split
        · split
          · rfl
          · split
            · rfl
            · exact storeSignature_trentKey tools e _ _
        · split
          · rfl
          · rfl
          · split
            · rfl
            · exact storePromise_trentKey tools e _ _ _

end ProtocolSign

theorem Establisher.respond_trentKey (e : Establisher) (ev : EstablisherEvent) :
    (e.respond tools ev).trentKey = e.trentKey := by
  cases ev with
  | start coins =>
      simp only [respond, start]
      split
      · exact ProtocolSign.sendMessage_trentKey tools e coins
      · rfl
  | input x =>
      cases x with
      | wish w => rfl
      | deliver message senderId =>
          exact ProtocolSign.verifyAndStoreSignature_trentKey tools e message senderId
      | advance coins =>
          simp only [respond, handle]
          split
          · exact ProtocolSign.sendMessage_trentKey tools { e with round := e.round + 1 } coins
          · rfl
      | ask coins => exact ProtocolResolve.sendMessage_trentKey tools e coins
      | trentMessage data senderId => exact ProtocolResolve.notify_trentKey tools e data senderId

end TrentKey

end Sxp
