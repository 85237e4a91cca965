import Mathlib
import Leaderberry.Lib.Watermark
import Leaderberry.Privval.FilePV

/-!
# No double signing

The last sign state is a watermark over everything the validator has released: in
memory and on disk, at every moment, each released signature is at an earlier
height, round and step, or it is the one the state remembers (`Covers`). A call
releases a signature only after the new state is on disk, or repeats the remembered
one for a message with the same sign-bytes hash.

What is assumed of the code outside the repository: SHA-256 digests have 32 bytes and
do not collide on the presented messages; Ed25519 signatures have 64 bytes and verify.
-/

namespace Leaderberry

variable {lss : LastSignState} {payload : SignPayload}

open Watermark

/-- Height, round and step in lexicographic order. -/
abbrev SignSlot := Int ×ₗ Int ×ₗ Int

def LastSignState.slot (lss : LastSignState) : SignSlot :=
  toLex (lss.height, toLex (lss.round, lss.step))

def SignPayload.slot (payload : SignPayload) : SignSlot :=
  toLex (payload.height, toLex (payload.round, payload.step))

/-- The released message as a log entry. -/
def Release.entry (r : Release) : Entry SignSlot Bytes := ⟨r.payload.slot, r.payload.signBytes⟩

theorem slot_lt_iff : lss.slot < payload.slot ↔
    lss.height < payload.height ∨ lss.height = payload.height ∧
      (lss.round < payload.round ∨ lss.round = payload.round ∧ lss.step < payload.step) := by
  simp [LastSignState.slot, SignPayload.slot, Prod.Lex.lt_iff]

/-- `CheckHRS` lets through exactly what comes later. -/
theorem checkHRS_ok (h : lss.checkHRS payload.height payload.round payload.step = .ok ()) :
    lss.slot < payload.slot := by
  rw [slot_lt_iff]
  unfold LastSignState.checkHRS at h
  split_ifs at h <;> omega

/-- `ErrDoubleSign` means the same position. -/
theorem checkHRS_doubleSign
    (h : lss.checkHRS payload.height payload.round payload.step = .error .doubleSign) :
    lss.slot = payload.slot := by
  unfold LastSignState.checkHRS at h
  unfold LastSignState.slot SignPayload.slot
  split_ifs at h <;> simp_all

section

variable [Externals]

/-! ## Recognizing a repeated message -/

/-- `same` is true at the position of the last signature only for a message with the
remembered sign-bytes hash. -/
def Recognizes (lss : LastSignState) (payload : SignPayload) (same : Bool) : Prop :=
  same = true → lss.slot = payload.slot → lss ≠ .zero ∧
    ∀ hash, lss.signBytesHash = some hash → hash = hashBytes payload.signBytes

theorem recognizes_vote (lss : LastSignState) (chainID : GoString) {vote : Vote} {step : Int}
    (hstep : voteStep vote.type = some step) :
    Recognizes lss (votePayload chainID vote step) (lss.isSameVote chainID vote) := by
  intro hsame hslot
  constructor
  · -- a vote has a step after the zero state's
    rintro rfl
    have hzero : step = 0 := by
      have := congrArg (fun s : SignSlot => (ofLex (ofLex s).2).2) hslot
      exact this.symm
    unfold voteStep at hstep
    split at hstep <;> cases hstep <;> cases hzero
  · intro hash hhash
    simp only [LastSignState.isSameVote, hhash] at hsame
    exact beq_iff_eq.mp hsame

theorem recognizes_proposal (lss : LastSignState) (chainID : GoString) (p : Proposal) :
    Recognizes lss (proposalPayload chainID p) (lss.isSameProposal chainID p) := by
  intro hsame _
  constructor
  · rintro rfl
    simp [LastSignState.isSameProposal, LastSignState.zero] at hsame
  · intro hash hhash
    simp only [LastSignState.isSameProposal, hhash] at hsame
    exact beq_iff_eq.mp hsame

/-! ## How a call ends -/

/-- The results of a call. -/
inductive SignResult (pv : FilePV) (disk : FilePVState) (payload : SignPayload) (same : Bool) :
    SignOutcome × Option FilePV × FilePVState → Prop
  | nothing {outcome : SignOutcome} {pv' : Option FilePV} :
      (∀ s, outcome ≠ .released s) → pv' = some pv ∨ pv' = none →
      SignResult pv disk payload same (outcome, pv', disk)
  | repeated : pv.lastSignState.slot = payload.slot → same = true →
      SignResult pv disk payload same (.released pv.lastSignState.signature, some pv, disk)
  | unreleased {outcome : SignOutcome} {pv' : Option FilePV} {signature : Signature} :
      (∀ s, outcome ≠ .released s) → pv' = some pv ∨ pv' = none →
      signature = ⟨Externals.ed25519Sign pv.privKey payload.signBytes⟩ →
      pv.lastSignState.slot < payload.slot →
      SignResult pv disk payload same (outcome, pv', (payload.state signature).save)
  | released {signature : Signature} :
      signature = ⟨Externals.ed25519Sign pv.privKey payload.signBytes⟩ →
      pv.lastSignState.slot < payload.slot →
      SignResult pv disk payload same (.released signature,
        some { pv with lastSignState := payload.state signature },
        (payload.state signature).save)

theorem finish_result {pv : FilePV} {disk : FilePVState} {payload : SignPayload} {same : Bool}
    {outcome : SignOutcome} (h : ∀ s, outcome ≠ .released s) (fate : Fate) :
    SignResult pv disk payload same (pv.finish disk outcome fate) := by
  cases fate with
  | completes => exact .nothing h (.inl rfl)
  | saveFails => exact .nothing h (.inl rfl)
  | crashes => exact .nothing (fun s => by simp) (.inr rfl)

theorem signPayload_result (pv : FilePV) (disk : FilePVState) (payload : SignPayload)
    (same : Bool) (fate : Fate) :
    SignResult pv disk payload same (pv.signPayload disk payload same fate) := by
  unfold FilePV.signPayload
  split
  · rename_i e he
    split
    · rename_i hrepeat
      obtain ⟨rfl, hsame⟩ := hrepeat
      have hslot := checkHRS_doubleSign he
      cases fate with
      | completes => exact .repeated hslot hsame
      | saveFails => exact .repeated hslot hsame
      | crashes => exact .nothing (fun s => by simp) (.inr rfl)
    · exact finish_result (fun s => by simp) fate
  · rename_i hok
    have hslot := checkHRS_ok hok
    dsimp only
    split
    · exact finish_result (fun s => by simp) fate
    · cases fate with
      | completes => exact .released rfl hslot
      | saveFails renamed =>
        cases renamed with
        | false => exact .nothing (fun s => by simp) (.inl rfl)
        | true => exact .unreleased (fun s => by simp) (.inl rfl) rfl hslot
      | crashes renamed =>
        cases renamed with
        | false => exact .nothing (fun s => by simp) (.inr rfl)
        | true => exact .unreleased (fun s => by simp) (.inr rfl) rfl hslot

/-! ## The watermark -/

/-- What the proofs need of SHA-256 and of Ed25519 under the validator's key. -/
structure SoundCrypto (pubKey : PublicKey) (privKey : Bytes) : Prop where
  key : pubKey.data.length = publicKeySize
  digest : ∀ m, (Externals.sha256 m).length = hashSize
  signature : ∀ m, (Externals.ed25519Sign privKey m).length = signatureSize
  verifies : ∀ m, Externals.ed25519Verify pubKey.data m (Externals.ed25519Sign privKey m) = true

theorem SoundCrypto.verify {pubKey : PublicKey} {privKey : Bytes}
    (h : SoundCrypto pubKey privKey) (m : Bytes) :
    verifySignature pubKey m ⟨Externals.ed25519Sign privKey m⟩ = true := by
  simp [verifySignature, h.key, h.signature, h.verifies]

/-- No two of the presented messages collide. -/
def CollisionFree (presented : Bytes → Prop) : Prop :=
  ∀ m m', presented m → presented m' → Externals.sha256 m = Externals.sha256 m' → m = m'

/-- The state remembers the message `m`, with a signature that is valid for it. -/
structure Marks (valid : Signature → Bytes → Prop) (presented : Bytes → Prop)
    (lss : LastSignState) (m : Entry SignSlot Bytes) : Prop where
  slot : lss.slot = m.slot
  hash : lss.signBytesHash = some (hashBytes m.value)
  signature : valid lss.signature m.value
  presented : presented m.value

/-- The state is above everything released: nothing was, or it remembers a message
above the log. -/
def Covers (valid : Signature → Bytes → Prop) (presented : Bytes → Prop) (lss : LastSignState)
    (log : List (Entry SignSlot Bytes)) : Prop :=
  lss = .zero ∧ log = [] ∨ ∃ m, Marks valid presented lss m ∧ Above m log

/-- Whatever memory remembers, the file remembers it or something later. -/
def Ahead (valid : Signature → Bytes → Prop) (presented : Bytes → Prop)
    (memory file : LastSignState) : Prop :=
  ∀ m, Marks valid presented memory m →
    ∃ m', Marks valid presented file m' ∧ (m.slot < m'.slot ∨ m = m')

section

variable {valid : Signature → Bytes → Prop} {presented : Bytes → Prop}
  {lss : LastSignState} {m m' : Entry SignSlot Bytes} {log : List (Entry SignSlot Bytes)}

theorem marks_state (valid : Signature → Bytes → Prop) {signature : Signature}
    (hvalid : valid signature payload.signBytes) (hpresented : presented payload.signBytes) :
    Marks valid presented (payload.state signature) ⟨payload.slot, payload.signBytes⟩ :=
  ⟨rfl, rfl, hvalid, hpresented⟩

theorem Marks.unique (hfree : CollisionFree presented) (h : Marks valid presented lss m)
    (h' : Marks valid presented lss m') : m = m' := by
  have hhash : hashBytes m.value = hashBytes m'.value :=
    Option.some_inj.mp (h.hash.symm.trans h'.hash)
  have hvalue := hfree _ _ h.presented h'.presented (congrArg Hash.data hhash)
  have hslot := h.slot.symm.trans h'.slot
  cases m
  cases m'
  simp_all

/-- The state file keeps what a state remembers. -/
theorem Marks.load (digest : ∀ m, (Externals.sha256 m).length = hashSize)
    {lss' : LastSignState} (h : Marks valid presented lss m)
    (hload : lss.save.load = .ok lss') : Marks valid presented lss' m := by
  unfold FilePVState.load at hload
  split at hload
  · cases hload
  split at hload
  · cases hload
  split at hload
  · cases hload
  rename_i hash hhash
  cases hload
  refine ⟨h.slot, ?_, h.signature, h.presented⟩
  show hash = _
  have hsaved : lss.save.signBytesHash = Externals.sha256 m.value := by
    simp [LastSignState.save, h.hash, hashBytes]
  unfold loadHash at hhash
  rw [hsaved, if_neg (by rw [digest]; decide), if_pos (digest _)] at hhash
  exact (Except.ok.inj hhash).symm

theorem covers_zero : Covers valid presented .zero [] := .inl ⟨rfl, rfl⟩

/-- A later message is above everything the state covers. -/
theorem Covers.later (h : Covers valid presented lss log) (hlt : lss.slot < payload.slot) :
    Above ⟨payload.slot, payload.signBytes⟩ log := by
  rcases h with ⟨-, rfl⟩ | ⟨m, hm, habove⟩
  · exact above_nil
  · exact habove.later (hm.slot ▸ hlt)

/-- The message a state remembers is above everything the state covers. -/
theorem Covers.above (hfree : CollisionFree presented) (h : Covers valid presented lss log)
    (hm : Marks valid presented lss m) : Above m log := by
  rcases h with ⟨rfl, -⟩ | ⟨m', hm', habove⟩
  · cases hm.hash
  · rwa [hm.unique hfree hm']

/-- A message that the state remembers, or something later, may be released. -/
theorem Covers.cons (hfree : CollisionFree presented) (h : Covers valid presented lss log)
    (hm' : Marks valid presented lss m') (hle : m.slot < m'.slot ∨ m = m') :
    Covers valid presented lss (m :: log) := by
  refine .inr ⟨m', hm', fun e he => ?_⟩
  rcases List.mem_cons.mp he with rfl | he
  · exact hle
  · exact h.above hfree hm' e he

/-- The same digest at the same position: the remembered message itself. -/
theorem Covers.recognized (hfree : CollisionFree presented) (h : Covers valid presented lss log)
    (hpresented : presented payload.signBytes) {same : Bool}
    (hrecognizes : Recognizes lss payload same) (hsame : same = true)
    (hslot : lss.slot = payload.slot) :
    Marks valid presented lss ⟨payload.slot, payload.signBytes⟩ := by
  obtain ⟨hnonzero, hhash⟩ := hrecognizes hsame hslot
  rcases h with ⟨hzero, -⟩ | ⟨m, hm, -⟩
  · exact absurd hzero hnonzero
  have hbytes : m.value = payload.signBytes :=
    hfree _ _ hm.presented hpresented (congrArg Hash.data (hhash _ hm.hash))
  exact ⟨hslot, hbytes ▸ hm.hash, hbytes ▸ hm.signature, hpresented⟩

/-- Memory and the state file over a log: both cover it, and the file is not behind memory. -/
structure Kept (valid : Signature → Bytes → Prop) (presented : Bytes → Prop)
    (file : FilePVState) (lss : LastSignState) (log : List (Entry SignSlot Bytes)) : Prop where
  disk : ∀ lss, file.load = .ok lss → Covers valid presented lss log
  memory : Covers valid presented lss log
  ahead : ∀ lss', file.load = .ok lss' → Ahead valid presented lss lss'

/-- Memory is read from the file. -/
theorem kept_load {disk : FilePVState}
    (hdisk : ∀ lss, disk.load = .ok lss → Covers valid presented lss log)
    (hload : disk.load = .ok lss) : Kept valid presented disk lss log where
  disk := hdisk
  memory := hdisk lss hload
  ahead lss' hload' m hm := by
    cases hload.symm.trans hload'
    exact ⟨m, hm, .inr rfl⟩

/-- A later message is saved, and not yet in memory. -/
theorem Kept.saved {disk : FilePVState} (h : Kept valid presented disk lss log)
    (digest : ∀ m, (Externals.sha256 m).length = hashSize) {signature : Signature}
    (hvalid : valid signature payload.signBytes) (hpresented : presented payload.signBytes)
    (hlt : lss.slot < payload.slot) :
    Kept valid presented (payload.state signature).save lss log := by
  have hmarks := marks_state valid hvalid hpresented
  refine ⟨fun lss' hload => ?_, h.memory, fun lss' hload m hm => ?_⟩
  · exact .inr ⟨_, hmarks.load digest hload, h.memory.later hlt⟩
  · exact ⟨_, hmarks.load digest hload, .inl (hm.slot ▸ hlt)⟩

/-- A later message is saved and in memory. -/
theorem Kept.signed {disk : FilePVState} (h : Kept valid presented disk lss log)
    (digest : ∀ m, (Externals.sha256 m).length = hashSize) {signature : Signature}
    (hvalid : valid signature payload.signBytes) (hpresented : presented payload.signBytes)
    (hlt : lss.slot < payload.slot) :
    Kept valid presented (payload.state signature).save (payload.state signature) log where
  disk := (h.saved digest hvalid hpresented hlt).disk
  memory := .inr ⟨_, marks_state valid hvalid hpresented, h.memory.later hlt⟩
  ahead _ hload m hm := ⟨m, hm.load digest hload, .inr rfl⟩

/-- The message in memory is released: the file keeps it or a later one. -/
theorem Kept.release {disk : FilePVState} (h : Kept valid presented disk lss log)
    (hfree : CollisionFree presented) (hm : Marks valid presented lss m) :
    Kept valid presented disk lss (m :: log) := by
  refine ⟨fun lss' hload => ?_, h.memory.cons hfree hm (.inr rfl), h.ahead⟩
  obtain ⟨m', hm', hle⟩ := h.ahead lss' hload m hm
  exact (h.disk lss' hload).cons hfree hm' hle

end

section

variable {pubKey : PublicKey} {privKey : Bytes} {presented : Bytes → Prop} {s : SignerState}
  {pv : FilePV}

/-! ## The invariant -/

/-- The signature is the one that the key makes. -/
def SignedWith (privKey : Bytes) (signature : Signature) (m : Bytes) : Prop :=
  signature = ⟨Externals.ed25519Sign privKey m⟩

/-- The messages of the released signatures. -/
def SignerState.log (s : SignerState) : List (Entry SignSlot Bytes) :=
  s.released.map Release.entry

/-- The invariant of a history. -/
structure Safe (pubKey : PublicKey) (privKey : Bytes) (presented : Bytes → Prop)
    (s : SignerState) : Prop where
  keys : s.pubKey = pubKey ∧ s.privKey = privKey
  guarded : Guarded s.log
  signed : ∀ r ∈ s.released, SignedWith privKey r.signature r.payload.signBytes
  disk : ∀ lss, s.disk.load = .ok lss → Covers (SignedWith privKey) presented lss s.log
  memory : ∀ pv, s.pv = some pv → pv.privKey = privKey ∧
    Kept (SignedWith privKey) presented s.disk pv.lastSignState s.log

theorem safe_generate : Safe pubKey privKey presented (.generate pubKey privKey) := by
  have hdisk : ∀ lss, LastSignState.zero.save.load = .ok lss →
      Covers (SignedWith privKey) presented lss [] := by
    intro lss hload
    cases hload
    exact covers_zero
  refine ⟨⟨rfl, rfl⟩, guarded_nil, fun r hr => ?_, hdisk, fun pv hpv => ?_⟩
  · cases hr
  · cases hpv
    exact ⟨rfl, kept_load hdisk rfl⟩

namespace Safe

variable (h : Safe pubKey privKey presented s)

include h

/-- Another state in memory and on disk; the process may be gone. -/
theorem hold (pv : FilePV) {pv' : Option FilePV} (hpv' : pv' = some pv ∨ pv' = none)
    (hkey : pv.privKey = privKey) {disk : FilePVState}
    (hkept : Kept (SignedWith privKey) presented disk pv.lastSignState s.log) :
    Safe pubKey privKey presented { s with pv := pv', disk } where
  keys := h.keys
  guarded := h.guarded
  signed := h.signed
  disk := hkept.disk
  memory q hq := by
    rcases hpv' with rfl | rfl
    · cases hq
      exact ⟨hkey, hkept⟩
    · cases hq

theorem loadFilePV : Safe pubKey privKey presented s.loadFilePV := by
  unfold SignerState.loadFilePV
  split
  · exact ⟨h.keys, h.guarded, h.signed, h.disk, fun pv hpv => by cases hpv⟩
  · rename_i hload
    exact h.hold _ (.inl rfl) h.keys.2 (kept_load h.disk hload)

/-! ### Calls -/

/-- The signature of the message in memory leaves the validator. -/
theorem release (hfree : CollisionFree presented) (hpv : s.pv = some pv) {r : Release}
    (hsigned : SignedWith privKey r.signature r.payload.signBytes)
    (hmarks : Marks (SignedWith privKey) presented pv.lastSignState r.entry) :
    Safe pubKey privKey presented { s with released := r :: s.released } := by
  obtain ⟨hkey, hkept⟩ := h.memory pv hpv
  have hrelease := hkept.release hfree hmarks
  refine ⟨h.keys, h.guarded.cons (hkept.memory.above hfree hmarks), fun r' hr' => ?_,
    hrelease.disk, fun q hq => ?_⟩
  · rcases List.mem_cons.mp hr' with rfl | hr'
    · exact hsigned
    · exact h.signed r' hr'
  · cases hpv.symm.trans hq
    exact ⟨hkey, hrelease⟩

theorem called (crypto : SoundCrypto pubKey privKey) (hfree : CollisionFree presented)
    (hpv : s.pv = some pv) (hpresented : presented payload.signBytes) {same : Bool}
    (hsame : Recognizes pv.lastSignState payload same)
    {result : SignOutcome × Option FilePV × FilePVState}
    (hresult : SignResult pv s.disk payload same result) :
    Safe pubKey privKey presented (s.called (some payload) result) := by
  obtain ⟨hkey, hkept⟩ := h.memory pv hpv
  have hquiet : ∀ {outcome : SignOutcome} (pv' : Option FilePV) (disk : FilePVState),
      (∀ signature, outcome ≠ .released signature) →
      s.called (some payload) (outcome, pv', disk) = { s with pv := pv', disk } := by
    intro outcome pv' disk hnone
    cases outcome <;> first | rfl | exact absurd rfl (hnone _)
  cases hresult with
  | nothing hnone hpv' =>
    rw [hquiet _ _ hnone]
    exact h.hold pv hpv' hkey hkept
  | repeated hslot htrue =>
    have hmarks := hkept.memory.recognized hfree hpresented hsame htrue hslot
    have hsafe := h.release hfree hpv (r := ⟨payload, _⟩) hmarks.signature hmarks
    rw [hpv] at hsafe
    exact hsafe
  | unreleased hnone hpv' hsig hlt =>
    rw [hquiet _ _ hnone]
    exact h.hold pv hpv' hkey (hkept.saved crypto.digest (hkey ▸ hsig) hpresented hlt)
  | @released signature hsig hlt =>
    have hsigned : SignedWith privKey signature payload.signBytes := hkey ▸ hsig
    have hheld := h.hold { pv with lastSignState := payload.state signature } (.inl rfl) hkey
      (hkept.signed crypto.digest hsigned hpresented hlt)
    exact hheld.release hfree rfl hsigned (marks_state _ hsigned hpresented)

/-- Every event keeps the invariant. -/
theorem step (crypto : SoundCrypto pubKey privKey) (hfree : CollisionFree presented)
    (event : SignEvent)
    (hpresented : ∀ payload, event.payload = some payload → presented payload.signBytes) :
    Safe pubKey privKey presented (s.step event) := by
  cases event with
  | load =>
    unfold SignerState.step
    exact h.loadFilePV
  | vote chainID v fate =>
    cases hpv : s.pv with
    | none =>
      simp only [SignerState.step, hpv]
      exact h
    | some pv =>
      simp only [SignerState.step, hpv, FilePV.signVote, SignEvent.payload]
      cases hstep : voteStep v.type with
      | none =>
        have hfinish : ∃ outcome pv', (pv' = some pv ∨ pv' = none) ∧
            pv.finish s.disk .panicked fate = (outcome, pv', s.disk) := by
          cases fate <;> simp [FilePV.finish]
        obtain ⟨outcome, pv', hpv', heq⟩ := hfinish
        rw [heq]
        obtain ⟨hkey, hkept⟩ := h.memory pv hpv
        exact h.hold pv hpv' hkey hkept
      | some step =>
        refine h.called crypto hfree hpv (hpresented _ ?_) (recognizes_vote _ chainID hstep)
          (signPayload_result pv s.disk _ _ fate)
        simp [SignEvent.payload, hstep]
  | proposal chainID p fate =>
    cases hpv : s.pv with
    | none =>
      simp only [SignerState.step, hpv]
      exact h
    | some pv =>
      simp only [SignerState.step, hpv, FilePV.signProposal, SignEvent.payload]
      exact h.called crypto hfree hpv (hpresented _ rfl) (recognizes_proposal _ chainID p)
        (signPayload_result pv s.disk _ _ fate)

end Safe

/-- Every history keeps the invariant. -/
theorem Safe.run (crypto : SoundCrypto pubKey privKey) (hfree : CollisionFree presented)
    (events : List SignEvent) : ∀ {s : SignerState}, Safe pubKey privKey presented s →
      (∀ event ∈ events, ∀ payload, event.payload = some payload →
        presented payload.signBytes) →
      Safe pubKey privKey presented (s.run events) := by
  induction events with
  | nil => exact fun h _ => h
  | cons event rest ih =>
    intro s h hpresented
    exact ih (h.step crypto hfree event (hpresented event (List.mem_cons_self ..)))
      fun e he => hpresented e (List.mem_cons_of_mem _ he)

/-- **No double signing.** Whatever is presented to the validator and wherever it
crashes, the signatures released at one position are over the same bytes, each is the
validator's own signature on its message, and positions go up except where the
previous message is repeated. -/
theorem no_double_sign (crypto : SoundCrypto pubKey privKey) (events : List SignEvent)
    (hfree : CollisionFree fun m => ∃ event ∈ events, ∃ payload,
      event.payload = some payload ∧ payload.signBytes = m) :
    let released := ((SignerState.generate pubKey privKey).run events).released
    (∀ r ∈ released, ∀ r' ∈ released, r.payload.slot = r'.payload.slot →
      r.payload.signBytes = r'.payload.signBytes) ∧
    (∀ r ∈ released, r.signature = ⟨Externals.ed25519Sign privKey r.payload.signBytes⟩ ∧
      verifySignature pubKey r.payload.signBytes r.signature = true) ∧
    released.IsChain fun newer older => older.payload.slot < newer.payload.slot ∨
      (newer.payload.slot = older.payload.slot ∧
        newer.payload.signBytes = older.payload.signBytes) := by
  intro released
  have hsafe := Safe.run crypto hfree events safe_generate
    fun event hevent payload hpayload => ⟨event, hevent, payload, hpayload, rfl⟩
  refine ⟨fun r hr r' hr' hslot => ?_, fun r hr => ?_, ?_⟩
  · have heq := hsafe.guarded.unique (List.mem_map_of_mem hr) (List.mem_map_of_mem hr') hslot
    exact congrArg Entry.value heq
  · have hsig := hsafe.signed r hr
    exact ⟨hsig, hsig ▸ crypto.verify _⟩
  · refine ((List.isChain_map _).mp hsafe.guarded.isChain).imp fun newer older h => ?_
    rcases h with hlt | heq
    · exact .inl hlt
    · exact .inr ⟨congrArg Entry.slot heq.symm, congrArg Entry.value heq.symm⟩

end

end

section

attribute [local instance] transparent

/-- The key pair of the validator with byte `k`. -/
theorem soundCrypto_transparent (k : Byte) :
    SoundCrypto ⟨List.replicate publicKeySize k⟩ (List.replicate 64 k) where
  key := List.length_replicate
  digest := fun _ => length_fitTo _ _
  signature := fun _ => length_fitTo _ _
  verifies := fun _ => beq_iff_eq.mpr rfl

/-- A vote on a block hash, not yet signed. -/
def unsignedVote (type : VoteType) (round : Int) (hash : Byte) : Vote where
  type := type
  height := 1
  round := round
  blockHash := some ⟨List.replicate hashSize hash⟩
  timestamp := 0
  validator := ⟨some [7]⟩
  validatorIndex := 0
  signature := ⟨[]⟩

/-- A prevote; a precommit whose signature is lost in a crash after the rename; the
restart; a conflicting precommit; the lost precommit, twice; a later prevote. -/
def crashHistory : List SignEvent :=
  [.vote [] (unsignedVote .prevote 0 1) .completes,
    .vote [] (unsignedVote .precommit 0 1) (.crashes true),
    .load,
    .vote [] (unsignedVote .precommit 0 2) .completes,
    .vote [] (unsignedVote .precommit 0 1) .completes,
    .vote [] (unsignedVote .precommit 0 1) .completes,
    .vote [] (unsignedVote .prevote 1 2) .completes]

theorem no_double_sign_crashHistory :
    let released := ((SignerState.generate ⟨List.replicate publicKeySize 7⟩
      (List.replicate 64 7)).run crashHistory).released
    released.length = 4 ∧
    (∀ r ∈ released, ∀ r' ∈ released, r.payload.slot = r'.payload.slot →
      r.payload.signBytes = r'.payload.signBytes) ∧
    (∀ r ∈ released,
      r.signature = ⟨Externals.ed25519Sign (List.replicate 64 7) r.payload.signBytes⟩ ∧
      verifySignature ⟨List.replicate publicKeySize 7⟩ r.payload.signBytes r.signature = true) ∧
    released.IsChain fun newer older => older.payload.slot < newer.payload.slot ∨
      (newer.payload.slot = older.payload.slot ∧
        newer.payload.signBytes = older.payload.signBytes) := by
  have hfree : ∀ event ∈ crashHistory, ∀ event' ∈ crashHistory, ∀ payload ∈ event.payload,
      ∀ payload' ∈ event'.payload,
      Externals.sha256 payload.signBytes = Externals.sha256 payload'.signBytes →
      payload.signBytes = payload'.signBytes := by
    decide +kernel
  refine ⟨by decide +kernel, no_double_sign (soundCrypto_transparent 7) crashHistory ?_⟩
  rintro _ _ ⟨event, hevent, payload, hpayload, rfl⟩ ⟨event', hevent', payload', hpayload', rfl⟩
  exact hfree event hevent event' hevent' payload hpayload payload' hpayload'

end

end Leaderberry
