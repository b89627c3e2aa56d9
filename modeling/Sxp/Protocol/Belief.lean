-- SUMMARY: Whom a party believes to be Trent: answers are checked with a signer object that keeps the receiver key of its last use.
import Sxp.Protocol.Terminal

/-!
# Believing Trent

The signer object of the resolving step expects nobody in particular when the step is created,
Trent once the party has asked him, and the last party looked at once signatures were released.
An answer is checked with whatever it expects then.
-/

namespace Sxp

/-! ## The identity in a signature -/

namespace SigmaSignature

/-- The identity that the signature encrypts for its Trent is the one of `k`. -/
def Names (s : SigmaSignature) (k : ElGamalKey) : Prop :=
  ∃ clause, s.pcs.firstClause = .ok clause ∧
    SigmaSigner.matchesReceiver { receiverK := some k } clause.resEncrypt s.trentK = .ok true

variable {s : SigmaSignature} {k k' : ElGamalKey}

/-- What a signature names is the number read from its ciphertext. -/
theorem names_iff : s.Names k ↔ ∃ clause n, s.pcs.firstClause = .ok clause ∧
    (do BigInteger.mod (← BigInteger.ofBytes clause.resEncrypt.M) s.trentK.p) = .ok n ∧
      Sender.identification k = .ok n := by
  refine exists_congr fun clause => ?_
  rw [exists_and_left]
  refine and_congr_right fun _ => ?_
  unfold SigmaSigner.matchesReceiver
  simp only [Except.bind_eq_ok, Except.pure_eq_ok, beq_iff_eq]
  constructor
  · rintro ⟨b, hb, m, hm, n, hn, rfl⟩
    exact ⟨m, ⟨b, hb, hm⟩, hn⟩
  · rintro ⟨n, ⟨b, hb, hm⟩, hn⟩
    exact ⟨b, hb, n, hm, n, hn, rfl⟩

theorem Names.congr (h : Sender.identification k = Sender.identification k') :
    s.Names k ↔ s.Names k' := by
  rw [names_iff, names_iff, h]

/-- A signature names one identity only. -/
theorem Names.unique (h : s.Names k) (h' : s.Names k') :
    Sender.identification k = Sender.identification k' := by
  obtain ⟨clause, n, hclause, hmod, hid⟩ := names_iff.mp h
  obtain ⟨clause', n', hclause', hmod', hid'⟩ := names_iff.mp h'
  rw [hclause, Except.ok.injEq] at hclause'
  subst hclause'
  rw [hmod, Except.ok.injEq] at hmod'
  rw [hid, hid', hmod']

end SigmaSignature

/-- What a signer object checks: that the signature is one for anybody, and who it names. -/
theorem SigmaSigner.verify_iff_names {hash : String → Int} {trentK receiverK : Option ElGamalKey}
    {m : String} {s : SigmaSignature} :
    SigmaSigner.verify hash { trentK, receiverK } m s = .ok true ↔
      SigmaSigner.verify hash { trentK, receiverK := none } m s = .ok true ∧
        ∀ k, receiverK = some k → s.Names k := by
  rw [verify_eq_true, verify_eq_true]
  constructor
  · rintro ⟨clause, hclause, hmatch, hpcs, hrpcs, htrent⟩
    refine ⟨⟨clause, hclause, rfl, hpcs, hrpcs, htrent⟩, ?_⟩
    rintro k rfl
    exact ⟨clause, hclause, hmatch⟩
  · rintro ⟨⟨clause, hclause, -, hpcs, hrpcs, htrent⟩, hnames⟩
    refine ⟨clause, hclause, ?_, hpcs, hrpcs, htrent⟩
    cases receiverK with
    | none => rfl
    | some k =>
        obtain ⟨clause', hclause', hmatch⟩ := hnames k rfl
        rw [hclause, Except.ok.injEq] at hclause'
        rwa [hclause']

/-! ## Answers -/

variable (tools : StepTools)

namespace ProtocolResolve

/-- An answer from Trent's address, and its signature for the establisher. -/
structure Addressed (e : Establisher) (data : TrentMessage) (senderId : Int) (token : String)
    (s : SigmaSignature) : Prop where
  sender : senderId = e.trentKey.publicKey
  content : ∃ title signatures, data = .answer title token signatures ∧
    signatures.get e.key.publicKey = some s

/-- The signature in the answer is Trent's. -/
def FromTrent (e : Establisher) (data : TrentMessage) (senderId : Int) : Prop :=
  ∃ token s, Addressed e data senderId token s ∧
    SigmaSigner.verify tools.hash
      { trentK := some e.trentKey, receiverK := some e.trentKey } token s = .ok true

/-- The handler gets past its check: it cancels, or looks at the signatures. -/
def ActsOn (e : Establisher) (data : TrentMessage) (senderId : Int) : Prop :=
  ∃ title token, Trusted tools e data senderId title token

/-- The signer object expects the wrong identity, and the signature is of a kind to reveal it:
but for the identity it is right, and it names Trent, or whom the object expects. -/
def Misled (e : Establisher) (data : TrentMessage) (senderId : Int) : Prop :=
  ∃ token s, Addressed e data senderId token s ∧
    SigmaSigner.verify tools.hash { trentK := some e.trentKey, receiverK := none } token s =
      .ok true ∧
    match e.resolver.receiverK with
    | none => ¬ s.Names e.trentKey
    | some k => Sender.identification k ≠ Sender.identification e.trentKey ∧
        (s.Names k ∨ s.Names e.trentKey)

variable {tools} {e : Establisher} {data : TrentMessage} {senderId : Int}

theorem Addressed.unique {token token' : String} {s s' : SigmaSignature}
    (h : Addressed e data senderId token s) (h' : Addressed e data senderId token' s') :
    token = token' ∧ s = s' := by
  obtain ⟨title, signatures, hdata, hget⟩ := h.content
  obtain ⟨title', signatures', hdata', hget'⟩ := h'.content
  rw [hdata] at hdata'
  cases hdata'
  rw [hget] at hget'
  exact ⟨rfl, Option.some.inj hget'⟩

theorem actsOn_iff : ActsOn tools e data senderId ↔ ∃ token s, Addressed e data senderId token s ∧
    SigmaSigner.verify tools.hash { trentK := some e.trentKey, receiverK := e.resolver.receiverK }
      token s = .ok true := by
  constructor
  · rintro ⟨title, token, hsender, signatures, s, hdata, hget, hverify⟩
    exact ⟨token, s, ⟨hsender, title, signatures, hdata, hget⟩, hverify⟩
  · rintro ⟨token, s, ⟨hsender, title, signatures, hdata, hget⟩, hverify⟩
    exact ⟨title, token, hsender, signatures, s, hdata, hget, hverify⟩

/-- An answer that is not acted upon leaves the contract as it is. -/
theorem notify_of_not_actsOn (h : ¬ ActsOn tools e data senderId) :
    (notify tools e data senderId).1.contract = e.contract :=
  notify_of_not_trusted tools h

/-- An answer is acted upon exactly when it is Trent's, but for what misleads the signer object. -/
theorem actsOn_iff_fromTrent_iff :
    (ActsOn tools e data senderId ↔ FromTrent tools e data senderId) ↔
      ¬ Misled tools e data senderId := by
  rw [actsOn_iff, FromTrent, Misled]
  by_cases haddressed : ∃ token s, Addressed e data senderId token s ∧
      SigmaSigner.verify tools.hash { trentK := some e.trentKey, receiverK := none } token s =
      .ok true
  · obtain ⟨token, s, haddr, hright⟩ := haddressed
    have honly : ∀ P : String → SigmaSignature → Prop,
        (∃ token' s', Addressed e data senderId token' s' ∧ P token' s') ↔ P token s := by
      intro P
      constructor
      · rintro ⟨token', s', haddr', hP⟩
        obtain ⟨rfl, rfl⟩ := haddr.unique haddr'
        exact hP
      · exact fun hP => ⟨token, s, haddr, hP⟩
    rw [honly, honly, honly, SigmaSigner.verify_iff_names,
      @SigmaSigner.verify_iff_names tools.hash (some e.trentKey) (some e.trentKey)]
    simp only [hright, true_and, Option.some.injEq, forall_eq']
    cases e.resolver.receiverK with
    | none => simp
    | some k =>
        simp only [Option.some.injEq, forall_eq']
        constructor
        · rintro hiff ⟨hdiffers, hnames⟩
          have hk : s.Names k := hnames.elim id hiff.mpr
          exact hdiffers (hk.unique (hiff.mp hk))
        · intro hnot
          by_cases hsame : Sender.identification k = Sender.identification e.trentKey
          · exact SigmaSignature.Names.congr hsame
          · exact ⟨fun hk => absurd ⟨hsame, Or.inl hk⟩ hnot,
              fun ht => absurd ⟨hsame, Or.inr ht⟩ hnot⟩
  · have hnone : ∀ receiverK, ¬ ∃ token s, Addressed e data senderId token s ∧
        SigmaSigner.verify tools.hash { trentK := some e.trentKey, receiverK } token s =
        .ok true := by
      rintro receiverK ⟨token, s, haddr, hverify⟩
      exact haddressed ⟨token, s, haddr, (SigmaSigner.verify_iff_names.mp hverify).1⟩
    refine iff_of_true (iff_of_false (hnone _) (hnone _)) ?_
    rintro ⟨token, s, haddr, hright, -⟩
    exact haddressed ⟨token, s, haddr, hright⟩

/-- A party that has just asked Trent believes him and nobody else. -/
theorem actsOn_iff_of_asked (e : Establisher) (coins : Nat) :
    ActsOn tools (sendMessage tools e coins).1 data senderId ↔
      FromTrent tools (sendMessage tools e coins).1 data senderId := by
  rw [actsOn_iff_fromTrent_iff]
  rintro ⟨token, s, -, -, hcase⟩
  have hreceiver : (sendMessage tools e coins).1.resolver.receiverK =
      some (sendMessage tools e coins).1.trentKey := by
    unfold sendMessage
    simp only
    split <;> rfl
  rw [hreceiver] at hcase
  exact hcase.1 rfl

end ProtocolResolve

/-! ## Runs -/

namespace Establisher

/-- If the event is a message from Trent's listener, it is acted upon exactly when it is his. -/
def Believes (e : Establisher) : EstablisherEvent → Prop
  | .input (.trentMessage data senderId) =>
      ProtocolResolve.ActsOn tools e data senderId ↔ ProtocolResolve.FromTrent tools e data senderId
  | _ => True

def Misled (e : Establisher) : EstablisherEvent → Prop
  | .input (.trentMessage data senderId) => ProtocolResolve.Misled tools e data senderId
  | _ => False

theorem believes_iff (e : Establisher) (ev : EstablisherEvent) :
    e.Believes tools ev ↔ ¬ e.Misled tools ev := by
  cases ev with
  | start coins => simp [Believes, Misled]
  | input x =>
      cases x with
      | trentMessage data senderId => exact ProtocolResolve.actsOn_iff_fromTrent_iff
      | wish w => simp [Believes, Misled]
      | deliver message senderId => simp [Believes, Misled]
      | advance coins => simp [Believes, Misled]
      | ask coins => simp [Believes, Misled]

/-- Throughout a run the party believes Trent and nobody else exactly if its signer object is
never misled. -/
theorem trent_believed_iff (e : Establisher) (events : List EstablisherEvent) :
    (∀ t ∈ (e.life tools).trace (e.life tools).init events, t.1.Believes tools t.2) ↔
      ∀ t ∈ (e.life tools).trace (e.life tools).init events, ¬ t.1.Misled tools t.2 :=
  forall_congr' fun t => forall_congr' fun _ => believes_iff tools t.1 t.2

end Establisher

/-! ## Alice cancels Bob's contract -/

namespace Sample

/-- A key of Trent that can be encrypted as an identity. -/
def arbiterKey : ElGamalKey := { p := 23, g := 5, publicKey := 2 * 10 ^ 124 }

variable (hash : String → Int)

/-- Bob, who has agreed on that Trent. -/
def bobBefore : Establisher where
  key := bobKey
  trentKey := arbiterKey
  contract := { contract with signer := { trentK := some arbiterKey, receiverK := none } }

/-- An answer that Alice has signed. -/
def aliceAnswer : TrentMessage :=
  .answer "aborted" "token" (HashMap.singleton bobKey.publicKey
    (SigmaSignature.forged hash "token" aliceId arbiterKey))

theorem aliceKey_names : (SigmaSignature.forged hash "token" aliceId arbiterKey).Names aliceKey :=
  ⟨_, rfl, SigmaSignature.forged_matchesReceiver aliceKey_identification (by decide) rfl _ rfl _⟩

end Sample

namespace Establisher

/-- Bob, who has not asked Trent, takes Alice's signature for his. -/
theorem alice_believed : ¬ ∃ hash : String → Int,
    let tools := Sample.tools hash
    let life := Sample.bobBefore.life tools
    ∀ t ∈ life.trace life.init
      [.input (.trentMessage (Sample.aliceAnswer hash) Sample.arbiterKey.publicKey)],
      t.1.Believes tools t.2 := by
  rintro ⟨hash, hall⟩
  have hbelieves := hall (Sample.bobBefore.started,
    .input (.trentMessage (Sample.aliceAnswer hash) Sample.arbiterKey.publicKey)) List.mem_cons_self
  have hverify := SigmaSigner.verify_iff_names.mp (SigmaSignature.forged_verify hash
    Sample.aliceKey_identification (by decide) Sample.arbiterKey "token")
  refine (believes_iff _ _ _).mp hbelieves ⟨"token", _, ⟨rfl, _, _, rfl,
    (HashMap.get_singleton _ _ _).trans (if_pos BEq.rfl)⟩, hverify.1, ?_⟩
  intro hnames
  have hsame : Sender.identification Sample.aliceKey = Sender.identification Sample.arbiterKey :=
    (Sample.aliceKey_names hash).unique hnames
  exact absurd hsame (by decide +kernel)

end Establisher

end Sxp
