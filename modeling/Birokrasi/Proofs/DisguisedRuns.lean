import Birokrasi.Proofs.GuardedRounds
import Birokrasi.Proofs.HiddenOperations
import Birokrasi.Proofs.RelocatedCode
import Birokrasi.Proofs.SideBySide

/-!
# Disguised code runs as the plain code does

The plain machine and a quiet guarded machine with the disguised code are held side by side. Between
two instructions of the plain code the guarded machine passes over idle ones; at an instruction both do
the same, and a jump takes both to addresses that correspond. The main statement is
`disguise_preserves_run`.
-/

namespace Birokrasi.Disguise

open Birokrasi.Bytecode
open Birokrasi.Machine
open Birokrasi.Text (Bytes)

/-! ## Code that can be relocated -/

/-- Code made of operations that neither take money nor meet nor wait, with whole operands, whose
jumps lead to instructions or to its end. -/
structure Relocatable (code : Bytes) : Prop where
  standard : ∀ p ∈ pieces code, ∃ op ∈ Opcode.ofByte? p.op, Sober op ∧
    (carriesOperand op → p.operand.length = 2)
  targets : ∀ p ∈ pieces code, p.isJump → ofLittleEndian p.operand = code.length ∨
    ∃ q ∈ pieces code, q.address = some (ofLittleEndian p.operand)

variable {code code' : Bytes} {p : Piece} {op : Opcode}

theorem Relocatable.targeted (h : Relocatable code) : Targeted (pieces code) := by
  rw [Targeted, extent_pieces]
  exact h.targets

theorem operand_eq_nil_of_mem {start : Nat} (hp : p ∈ piecesFrom start code)
    (hop : p.op = op.byte) (hc : carriesOperand op = false) : p.operand = [] := by
  fun_induction piecesFrom start code with
  | case1 => cases hp
  | case2 start b low high rest h ih =>
    cases List.mem_cons.1 hp with
    | inl heq =>
      subst heq
      have hb : b = op.byte := hop
      simp [hb, hc] at h
    | inr hmem => exact ih hmem
  | case3 start b low high rest h ih =>
    cases List.mem_cons.1 hp with
    | inl heq => rw [heq]
    | inr hmem => exact ih hmem
  | case4 start b rest h ih =>
    cases List.mem_cons.1 hp with
    | inl heq => rw [heq]
    | inr hmem => exact ih hmem

theorem isJump_iff (hop : p.op = op.byte) (hl : carriesOperand op → p.operand.length = 2) :
    p.isJump = true ↔ jumps op := by
  have hj : p.op = Opcode.jump.byte ↔ op = .jump :=
    ⟨fun h => Opcode.byte_injective (hop.symm.trans h), fun h => h ▸ hop⟩
  have hjf : p.op = Opcode.jumpIfFalse.byte ↔ op = .jumpIfFalse :=
    ⟨fun h => Opcode.byte_injective (hop.symm.trans h), fun h => h ▸ hop⟩
  simp only [Piece.isJump, Bool.and_eq_true, Bool.or_eq_true, decide_eq_true_eq, hj, hjf, jumps]
  refine ⟨And.left, fun h => ⟨h, hl ?_⟩⟩
  rcases h with rfl | rfl <;> rfl

/-! ## At an instruction -/

/-- The places at two addresses. -/
def places (code code' : Bytes) (a a' : Nat) : Places := ⟨code.toArray, code'.toArray, a, a'⟩

theorem operand_of_bytes {n : Machine} {front back operand : Bytes} {b : UInt8}
    (hl : operand.length = 2) (hcode : n.code = code.toArray) (hpc : n.pc = front.length)
    (h : code = front ++ b :: operand ++ back) :
    perform Machine.operand n = (.ok (ofLittleEndian operand), n) := by
  match operand, hl with
  | [low, high], _ =>
    rw [operand_of_toList (by simpa [hcode] using h) hpc]
    simp [ofLittleEndian]

/-- The code `code'` is made of the instructions `qs`, which are those of `code` in disguise. -/
structure Disguised (m : Mapping) (code code' : Bytes) (qs : List Piece) : Prop where
  layout : Layout m (pieces code) qs code'
  relocatable : Relocatable code
  reveal : ∀ op : Opcode, m.reveal (m.conceal op.byte) = op.byte

section Run

variable {m : Mapping} {qs l r l' r' : List Piece} {a a' : Nat} {g : Guarded} {n : Machine}

theorem code_eq (hps : pieces code = l ++ p :: r) :
    code = l.flatMap Piece.bytes ++ p.op :: p.operand ++ r.flatMap Piece.bytes := by
  have h := flatMap_piecesFrom 0 code
  rw [← pieces, hps] at h
  simpa [Piece.bytes] using h.symm

/-- What a guarded machine does at an instruction in disguise. -/
theorem run_round_at (hd : Disguised m code code' qs) (hqs : qs = l' ++ p :: r')
    (hop : p.op = op.byte) (hsober : Sober op)
    (hx : Alike (places code code' a (extent l')) n g.core) (hq : g.Quiet (some m)) :
    g.core.pc < g.core.code.size ∧
    ∃ g', (Guarded.round (.float 0.0)).run.run g =
        ((perform (execute op.byte.toNat) g.core.counted).1, g') ∧
      g'.core = (perform (execute op.byte.toNat) g.core.counted).2 ∧
      (g'.core.traced = false → g'.Quiet (some m)) := by
  obtain ⟨front, operand, back, hcode, hfront, -, -⟩ := hd.layout.stands hqs
  have hlist : g.core.code.toList = front ++ m.conceal p.op :: (operand ++ back) := by
    rw [show g.core.code = code'.toArray from hx.code', hcode]
    simp
  have hpc : g.core.pc = front.length := by
    rw [hx.pc', hfront]
    rfl
  have hlt : g.core.pc < g.core.code.size := by
    rw [hpc, ← Array.length_toList, hlist]
    simp
    omega
  have hreveal : g.reveal (m.conceal p.op) = op.byte := by
    rw [Guarded.reveal, hq.mapping, hop]
    exact hd.reveal op
  rw [← Guarded.execute_byte_eq hsober.2.2]
  exact ⟨hlt, Guarded.run_round hq (fetch_of_toList (m := g.core.counted) hlist hpc) hreveal
    fun h => hsober.1 (Opcode.byte_injective h)⟩

/-- The guarded machine passes over an idle instruction. -/
theorem reaches_idle (hd : Disguised m code code' qs) (hqs : qs = l' ++ Piece.idle :: r')
    (hx : Alike (places code code' a (extent l')) n g.core) (hq : g.Quiet (some m)) :
    ∃ g', Guarded.ReachesIn 1 g g' ∧ g'.Quiet (some m) ∧
      Alike (places code code' a (extent (l' ++ [Piece.idle]))) n g'.core := by
  have hidle : Piece.idle.op = Opcode.nop.byte := rfl
  obtain ⟨hlt, g', hround, hcore, hquiet⟩ := run_round_at hd hqs hidle (by decide) hx hq
  have hnop : perform (execute Opcode.nop.byte.toNat) g.core.counted =
      (.ok true, { g.core.counted with pc := g.core.pc + 1 }) :=
    perform_execute (by decide) rfl
  rw [hnop] at hround hcore
  refine ⟨g', .one hlt hround, hquiet (hcore ▸ hx.traced'), ?_⟩
  rw [hcore]
  exact { hx with pc' := by simp [hx.pc', places, Piece.size, Piece.idle] }

/-- The guarded machine gets to the instruction that the plain machine is at. -/
theorem reaches_instruction (hd : Disguised m code code' qs) (hr : Padded r r')
    (hqs : qs = l' ++ r') (hx : Alike (places code code' a (extent l')) n g.core)
    (hq : g.Quiet (some m)) :
    ∃ k g' l'' r'', k ≤ r'.length ∧ Guarded.ReachesIn k g g' ∧ g'.Quiet (some m) ∧ qs = l'' ++ r'' ∧
      Alike (places code code' a (extent l'')) n g'.core ∧
      (r = [] ∧ r'' = [] ∨ ∃ p r₁ r₁', r = p :: r₁ ∧ r'' = p :: r₁' ∧ Padded r₁ r₁') := by
  induction hr generalizing l' g with
  | nil => exact ⟨0, g, l', [], Nat.zero_le _, .refl g, hq, hqs, hx, .inl ⟨rfl, rfl⟩⟩
  | idle _ ih =>
    obtain ⟨g₁, hreach, hquiet, halike⟩ := reaches_idle hd hqs hx hq
    obtain ⟨k, g', l'', r'', hk, hreach', hrest⟩ := ih (by simp [hqs]) halike hquiet
    exact ⟨1 + k, g', l'', r'', by rw [List.length_cons]; omega, hreach.trans hreach', hrest⟩
  | keep p hr =>
    exact ⟨0, g, l', _, Nat.zero_le _, .refl g, hq, hqs, hx, .inr ⟨p, _, _, rfl, rfl, hr⟩⟩

/-- Both machines are at the same instruction. -/
def Meet (code code' : Bytes) (qs : List Piece) (n n' : Machine) : Prop :=
  ∃ l p r l' r', pieces code = l ++ p :: r ∧ qs = l' ++ p :: r' ∧ Padded r r' ∧
    Alike (places code code' (extent l) (extent l')) n n'

/-- From addresses that correspond, the guarded machine gets to where the plain machine is: both are
at the end, or both at an instruction. -/
theorem reaches_meet (hd : Disguised m code code' qs) (hc : Corresponds (pieces code) qs a a')
    (hx : Alike (places code code' a a') n g.core) (hq : g.Quiet (some m)) :
    ∃ k g', k ≤ qs.length ∧ Guarded.ReachesIn k g g' ∧ g'.Quiet (some m) ∧
      (Alike (places code code' (extent (pieces code)) (extent qs)) n g'.core ∨
        Meet code code' qs n g'.core) := by
  obtain ⟨l, r, l', r', hps, hqs, hr, rfl, rfl⟩ := hc
  obtain ⟨k, g', l'', r'', hk, hreach, hq', hqs', hx', hcase⟩ := reaches_instruction hd hr hqs hx hq
  refine ⟨k, g', ?_, hreach, hq', ?_⟩
  · rw [hqs, List.length_append]
    omega
  · rcases hcase with ⟨rfl, rfl⟩ | ⟨p, r₁, r₁', rfl, rfl, hr₁⟩
    · rw [List.append_nil] at hps hqs'
      rw [hps, hqs']
      exact .inl hx'
    · exact .inr ⟨l, p, r₁, l'', r₁', hps, hqs', hr₁, hx'⟩

theorem width_eq_size (hp : p ∈ pieces code) (hop : p.op = op.byte)
    (hl : carriesOperand op → p.operand.length = 2) : width op = p.size := by
  cases hc : carriesOperand op with
  | true => simp [width, hc, Piece.size, hl hc]
  | false => simp [width, hc, Piece.size, operand_eq_nil_of_mem hp hop hc]

/-- The operands of an instruction in both codes: the same, or targets that correspond. -/
theorem exists_reads_at (hd : Disguised m code code' qs) (hps : pieces code = l ++ p :: r)
    (hqs : qs = l' ++ p :: r') (hop : p.op = op.byte)
    (hl : carriesOperand op → p.operand.length = 2) :
    ∃ k k', (carriesOperand op → Reads (places code code' (extent l) (extent l')) k k') ∧
      (¬ jumps op → k = k') ∧ (jumps op → Corresponds (pieces code) qs k k') := by
  obtain ⟨front, operand', back, hcode', hfront', hplain, hjump⟩ := hd.layout.stands hqs
  have hfront : (l.flatMap Piece.bytes).length = extent l := length_flatMap_bytes l
  have hisJump := isJump_iff hop hl
  have htarget (hj : jumps op) : operand'.length = 2 ∧
      Corresponds (pieces code) qs (ofLittleEndian p.operand) (ofLittleEndian operand') := by
    obtain ⟨new, rfl, hlt, hnew⟩ := hjump (hisJump.2 hj)
    rw [ofLittleEndian_littleEndian 2 new hlt]
    exact ⟨length_littleEndian 2 new, hnew⟩
  have hother (hj : ¬ jumps op) : operand' = p.operand :=
    hplain (Bool.eq_false_iff.2 fun h => hj (hisJump.1 h))
  have hl' (hc : carriesOperand op) : operand'.length = 2 := by
    by_cases hj : jumps op
    · exact (htarget hj).1
    · rw [hother hj]
      exact hl hc
  refine ⟨ofLittleEndian p.operand, ofLittleEndian operand', fun hc n₁ n₂ hx => ?_,
    fun hj => by rw [hother hj], fun hj => (htarget hj).2⟩
  exact ⟨operand_of_bytes (hl hc) hx.code (by rw [hx.pc, hfront]; rfl) (code_eq hps),
    operand_of_bytes (hl' hc) hx.code' (by rw [hx.pc', hfront']; rfl) hcode'⟩

/-- At an instruction both machines do the same, and go to addresses that correspond. -/
theorem exists_agree_at (hd : Disguised m code code' qs) (hps : pieces code = l ++ p :: r)
    (hqs : qs = l' ++ p :: r') (hr : Padded r r') (hop : p.op = op.byte) (hsober : Sober op)
    (hl : carriesOperand op → p.operand.length = 2) {n₁ n₂ : Machine}
    (hx : Alike (places code code' (extent l) (extent l')) n₁ n₂) :
    ∃ y, ((perform (execute op.byte.toNat) n₁).1 = .ok true →
        ∃ b b', y = places code code' b b' ∧ Corresponds (pieces code) qs b b') ∧
      Agree y (perform (execute op.byte.toNat) n₁) (perform (execute op.byte.toNat) n₂) := by
  have hmem : p ∈ pieces code := hps ▸ List.mem_append_right l List.mem_cons_self
  obtain ⟨k, k', hread, hsame, hcorr⟩ := exists_reads_at hd hps hqs hop hl
  refine exists_agree_execute hsober hread hsame ?_ (fun hj => ⟨k, k', rfl, hcorr hj⟩) hx
  refine ⟨extent (l ++ [p]), extent (l' ++ [p]), ?_, l ++ [p], r, l' ++ [p], r', by simp [hps],
    by simp [hqs], hr, rfl, rfl⟩
  simp [Places.on, places, width_eq_size hmem hop hl]

/-- What the plain machine does at an instruction. -/
theorem perform_round_at (hps : pieces code = l ++ p :: r)
    (hcode : n.code = code.toArray) (hpc : n.pc = extent l) (ht : n.traced = false) :
    perform (Machine.round (.float 0.0)) n = perform (execute p.op.toNat) n.counted := by
  have hlist : n.counted.code.toList = l.flatMap Piece.bytes ++
      p.op :: (p.operand ++ r.flatMap Piece.bytes) := by
    rw [show n.counted.code = code.toArray from hcode, code_eq hps]
    simp
  exact perform_round ht (fetch_of_toList hlist (by rw [hpc, length_flatMap_bytes]))

theorem lt_size_iff (hps : pieces code = l ++ r) (hcode : n.code = code.toArray)
    (hpc : n.pc = extent l) : n.pc < n.code.size ↔ r ≠ [] := by
  have hsize : n.code.size = extent l + extent r := by
    rw [hcode, List.size_toArray, ← extent_pieces, hps, extent_append]
  rw [hpc, hsize]
  cases r with
  | nil => simp
  | cons p r =>
    simp [Piece.size]
    omega

end Run

/-! ## Runs -/

/-- Whether a run ends by itself in so many rounds: at the end of the code, at the operation that
finishes it, or by a failure. -/
def stopsWithin : (rounds : Nat) → Machine → Bool
  | 0, n => n.code.size ≤ n.pc
  | rounds + 1, n =>
    if n.pc < n.code.size then
      match perform (Machine.round (.float 0.0)) n with
      | (.ok true, n) => stopsWithin rounds n
      | _ => true
    else true

section Simulation

variable {m : Mapping} {qs : List Piece} {a a' : Nat} {n : Machine} {g g' : Guarded}
  {x : Except Failure Unit × Machine} {k k' : Nat}

/-- Given `k` rounds or more, the guarded machine comes to the same end. -/
def Follows (k : Nat) (x : Except Failure Unit × Machine) (g : Guarded) : Prop :=
  ∃ outcome g' y, (∀ more, Guarded.loop (.float 0.0) (k + more) g = (outcome, g')) ∧
    Agree y x (outcome, g'.core)

theorem Follows.mono (h : Follows k x g) (hk : k ≤ k') : Follows k' x g := by
  obtain ⟨outcome, g', y, hloop, hagree⟩ := h
  refine ⟨outcome, g', y, fun more => ?_, hagree⟩
  rw [show k' + more = k + (k' - k + more) by omega, hloop]

theorem Follows.of_reaches (h : Guarded.ReachesIn k g g') (hf : Follows k' x g') :
    Follows (k + k') x g := by
  obtain ⟨outcome, g'', y, hloop, hagree⟩ := hf
  refine ⟨outcome, g'', y, fun more => ?_, hagree⟩
  rw [Nat.add_assoc, h, hloop]

/-- Behind the last instruction both runs are over. -/
theorem follows_end (hd : Disguised m code code' qs)
    (hx : Alike (places code code' (extent (pieces code)) (extent qs)) n g.core) (rounds : Nat) :
    Follows 0 (Machine.loop (.float 0.0) rounds n) g := by
  have hn : ¬ n.pc < n.code.size := by
    rw [lt_size_iff (List.append_nil _).symm hx.code hx.pc]
    exact fun h => h rfl
  have hg : ¬ g.core.pc < g.core.code.size := by
    rw [hx.pc', hx.code']
    simp [places, hd.layout.length_eq]
  rw [Machine.loop_of_end hn]
  exact ⟨.ok (), g, _, fun more => Guarded.loop_of_end hg _, .ok () hx⟩

theorem Meet.lt_size {n' : Machine} (h : Meet code code' qs n n') : n.pc < n.code.size := by
  obtain ⟨l, p, r, l', r', hps, -, -, hx⟩ := h
  exact (lt_size_iff hps hx.code hx.pc).2 (List.cons_ne_nil p r)

/-- At an instruction, the guarded machine goes along: the runs are over for both, or both go on from
addresses that correspond. -/
theorem follows_round (hd : Disguised m code code' qs) (rounds : Nat)
    (hm : Meet code code' qs n g.core) (hq : g.Quiet (some m)) (hs : stopsWithin (rounds + 1) n)
    (ih : ∀ {n g a a'}, Corresponds (pieces code) qs a a' → Alike (places code code' a a') n g.core →
      g.Quiet (some m) → stopsWithin rounds n → Follows k (Machine.loop (.float 0.0) rounds n) g) :
    Follows (1 + k) (Machine.loop (.float 0.0) (rounds + 1) n) g := by
  have hlt := hm.lt_size
  obtain ⟨l, p, r, l', r', hps, hqs, hr, hx⟩ := hm
  have hmem : p ∈ pieces code := hps ▸ List.mem_append_right l List.mem_cons_self
  obtain ⟨op, hbyte, hsober, hl⟩ := hd.relocatable.standard p hmem
  have hop := eq_byte_of_ofByte? hbyte
  obtain ⟨hlt', g', hround, hcore, hquiet⟩ := run_round_at hd hqs hop hsober hx hq
  obtain ⟨y, hy, hagree⟩ := exists_agree_at hd hps hqs hr hop hsober hl hx.counted
  have hplain := perform_round_at hps hx.code hx.pc hx.traced
  rw [hop] at hplain
  rw [stopsWithin, if_pos hlt, hplain] at hs
  rw [Machine.loop, if_pos hlt, hplain]
  generalize perform (execute op.byte.toNat) n.counted = u at hs hy hagree ⊢
  generalize perform (execute op.byte.toNat) g.core.counted = v at hround hcore hagree
  have hloop (more : Nat) : 1 + k + more = (k + more) + 1 := by omega
  cases hagree with
  | error e e' hz =>
    refine ⟨.error e', g', y, fun more => ?_, hcore ▸ .error e e' hz⟩
    rw [hloop, Guarded.loop, if_pos hlt', hround]
  | ok goesOn hy' =>
    cases goesOn with
    | false =>
      refine ⟨.ok (), g', y, fun more => ?_, hcore ▸ .ok () hy'⟩
      rw [hloop, Guarded.loop, if_pos hlt', hround]
    | true =>
      obtain ⟨b, b', rfl, hcorr⟩ := hy rfl
      refine .of_reaches (.one hlt' hround) (ih hcorr (hcore ▸ hy') (hquiet ?_) hs)
      exact hcore ▸ hy'.traced'

/-- Rounds of the guarded machine that are enough for so many rounds of the plain one: it may have to
pass over idle instructions before each, and at the end. -/
def roundsFor (qs : List Piece) (rounds : Nat) : Nat := qs.length + rounds * (1 + qs.length)

/-- A run of the plain machine that ends by itself is followed by the guarded one to the same end. -/
theorem follows_loop (hd : Disguised m code code' qs) (rounds : Nat)
    (hc : Corresponds (pieces code) qs a a') (hx : Alike (places code code' a a') n g.core)
    (hq : g.Quiet (some m)) (hs : stopsWithin rounds n) :
    Follows (roundsFor qs rounds) (Machine.loop (.float 0.0) rounds n) g := by
  induction rounds generalizing n g a a' with
  | zero =>
    obtain ⟨k, g', hk, hreach, -, hend | hmeet⟩ := reaches_meet hd hc hx hq
    · refine (Follows.of_reaches hreach (follows_end hd hend 0)).mono ?_
      rw [roundsFor]
      omega
    · have hge : (n.code.size : Int) ≤ n.pc := of_decide_eq_true hs
      have := hmeet.lt_size
      omega
  | succ rounds ih =>
    obtain ⟨k, g', hk, hreach, hq', hend | hmeet⟩ := reaches_meet hd hc hx hq
    · refine (Follows.of_reaches hreach (follows_end hd hend _)).mono ?_
      rw [roundsFor]
      omega
    · refine (Follows.of_reaches hreach (follows_round hd rounds hmeet hq' hs ih)).mono ?_
      rw [roundsFor, roundsFor, Nat.succ_mul]
      omega

end Simulation

/-! ## Ends of runs -/

/-- The last line of a run that has failed. -/
def errorLine (text : String) : String := "❌ RUNTIME ERROR: " ++ text ++ "\n"

/-- Two ends of runs that are the same, up to the text of the last line if the runs have failed. -/
structure SameEnd (x y : Bool × Machine) : Prop where
  answer : x.1 = y.1
  stack : x.2.stack = y.2.stack
  values : x.2.variables = y.2.variables
  budget : x.2.budget = y.2.budget
  progress : x.2.progress = y.2.progress
  printed : x.1 = true → x.2.printed = y.2.printed
  reported : x.1 = false → ∃ (before : Array String) (text text' : String),
    x.2.printed = before.push (errorLine text) ∧ y.2.printed = before.push (errorLine text')

theorem sameEnd_conclude {y : Places} {u v : Except Failure Unit × Machine} (h : Agree y u v) :
    SameEnd (conclude u.1 u.2) (conclude v.1 v.2) := by
  cases h with
  | ok a hx => exact ⟨rfl, hx.stack, hx.values, hx.budget, hx.progress, fun _ => hx.printed, nofun⟩
  | error e e' hE =>
    obtain ⟨z, hx⟩ := hE
    refine ⟨rfl, hx.stack, hx.values, hx.budget, hx.progress, nofun, fun _ => ?_⟩
    exact ⟨_, _, _, rfl, by rw [hx.printed]; rfl⟩

/-- A run of the guarded machine, as seen in the machine inside. -/
def seen (x : Bool × Guarded) : Bool × Machine := (x.1, x.2.core)

/-- Loops that come to the same end make runs that do. -/
theorem sameEnd_run {y : Places} {n : Machine} {g g' : Guarded} {outcome : Except Failure Unit}
    (challenge : Bool)
    (hloop : Guarded.loop (.float 0.0) (g.prepare false).core.roundsLeft (g.prepare false) =
      (outcome, g'))
    (h : Agree y (Machine.loop (.float 0.0) n.roundsLeft n) (outcome, g'.core)) :
    SameEnd (Machine.run (.float 0.0) challenge n)
      (seen (Guarded.run (.float 0.0) challenge false g)) := by
  simp only [Machine.run, Guarded.run, hloop]
  generalize Machine.loop (.float 0.0) n.roundsLeft n = x at h
  generalize hcore : g'.core = core at h
  cases h with
  | error e e' hx =>
    subst hcore
    exact sameEnd_conclude (y := y) (.error e e' hx)
  | ok _ hx =>
    subst hcore
    cases challenge with
    | false => exact sameEnd_conclude (.ok () hx)
    | true =>
      have hflag := twin_awardFlag _ _ hx
      simp only [Bool.not_false, Bool.and_self, if_true, Guarded.run_onCore]
      exact sameEnd_conclude hflag

theorem quiet_start (image : Image) (seed limit paranoia : Int) (hp : paranoia ≤ 1) :
    ((Guarded.start image seed limit false paranoia true).prepare false).Quiet
      (some (Mapping.ofSeed seed)) :=
  ⟨rfl, rfl, rfl, hp, rfl⟩

theorem alike_start (image : Image) (code : Bytes) (seed seed' limit limit' paranoia : Int) :
    Alike (places image.code code 0 0) (Machine.start .plain image seed limit false)
      ((Guarded.start { image with code } seed' limit' false paranoia true).prepare false).core :=
  ⟨rfl, rfl, rfl, rfl, rfl, rfl, rfl, rfl, rfl, rfl, rfl, rfl, rfl, rfl, rfl⟩

/-- Whatever the seed and the level, the disguised code does in a guarded machine that is not anxious
what the plain code does: a run of the plain machine that ends by itself within its step limit has the
same output, answer, stack, variables, budget and progress, once the step limit of the guarded machine
is large enough. Only the text of a final error may differ. -/
theorem disguise_preserves_run (image : Image) (h : Relocatable image.code) {seed level : Int}
    {code : Bytes} (hd : disguise image.code seed level = .ok code) {seed' limit : Int}
    (hs : stopsWithin (Machine.start .plain image seed' limit false).roundsLeft
      (Machine.start .plain image seed' limit false))
    {paranoia : Int} (hp : paranoia ≤ 1) (challenge : Bool) :
    ∃ enough : Int, ∀ limit' ≥ enough,
      SameEnd (Machine.run (.float 0.0) challenge (Machine.start .plain image seed' limit false))
        (seen (Guarded.run (.float 0.0) challenge false
          (Guarded.start { image with code } seed limit' false paranoia true))) := by
  let qs := spread (pieces image.code) seed level
  have hlayout := layout_of_disguise h.targeted hd
  have hdis : Disguised (Mapping.ofSeed seed) image.code code qs :=
    ⟨hlayout, h, Mapping.reveal_conceal seed⟩
  have hcorr : Corresponds (pieces image.code) qs 0 0 :=
    ⟨[], _, [], _, rfl, rfl, hlayout.padded, rfl, rfl⟩
  let n := Machine.start .plain image seed' limit false
  let k := roundsFor qs n.roundsLeft
  refine ⟨k, fun limit' hlimit => ?_⟩
  let g := Guarded.start { image with code } seed limit' false paranoia true
  obtain ⟨outcome, g', y, hloop, hagree⟩ := follows_loop hdis n.roundsLeft hcorr
    (alike_start image code seed' seed limit limit' paranoia)
    (quiet_start { image with code } seed limit' paranoia hp) hs
  have hrounds : (g.prepare false).core.roundsLeft = k + (limit'.toNat - k) := by
    have hleft : (g.prepare false).core.roundsLeft = (limit' - (0 : Nat)).toNat := rfl
    omega
  exact sameEnd_run challenge (by rw [hrounds, hloop]) hagree

/-- Counts down from three and prints each number; it has a jump back and one to its end. -/
def countdown : Image where
  code :=
    [0x01, 0x00, 0x00, 0x04, 0x00, 0x00, 0x03, 0x00, 0x00, 0x41, 0x1D, 0x00, 0x03, 0x00, 0x00, 0x10,
      0x03, 0x00, 0x00, 0x01, 0x01, 0x00, 0x21, 0x04, 0x00, 0x00, 0x40, 0x06, 0x00]
  constants := [.int 3, .int 1]

theorem disguise_preserves_run_countdown :
    Relocatable countdown.code ∧
    stopsWithin (Machine.start .plain countdown 0 1000 false).roundsLeft
      (Machine.start .plain countdown 0 1000 false) ∧
    ∃ code, disguise countdown.code 7 2 = .ok code ∧
      ∃ enough : Int, ∀ limit' ≥ enough,
        SameEnd (Machine.run (.float 0.0) true (Machine.start .plain countdown 0 1000 false))
          (seen (Guarded.run (.float 0.0) true false
            (Guarded.start { countdown with code } 7 limit' false 1 true))) := by
  have h : Relocatable countdown.code := ⟨by decide, by decide⟩
  have hs : stopsWithin (Machine.start .plain countdown 0 1000 false).roundsLeft
      (Machine.start .plain countdown 0 1000 false) := by
    decide +kernel
  obtain ⟨code, hd⟩ : ∃ code, disguise countdown.code 7 2 = .ok code :=
    exists_disguise 7 2 (by decide)
  exact ⟨h, hs, code, hd, disguise_preserves_run countdown h hd hs (by decide) true⟩

end Birokrasi.Disguise
