import UBoot.Bootm

/-!
# Sequences of `bootm` sub-commands

The bits of `images.state` are those of the stages that have run since the
last `start`, and of that `start` if it succeeded. A stage is recorded before
its work is done, so a failure leaves no trace in the state.
-/

set_option autoImplicit false

namespace UBoot.Bootm

variable {W : Type} (c : Callees W)

/-- A sub-command, and what other commands have done to the machine before it. -/
structure Command (W : Type) where
  argv : List Arg
  between : W → W

def Command.before (cmd : Command W) (b : Boot W) : Boot W :=
  ⟨b.state, b.machine.headers, cmd.between b.machine.world⟩

def Command.report (cmd : Command W) (b : Boot W) : Report W :=
  doBootmSubcommand c cmd.argv (cmd.before b)

/-- `P` holds of each sub-command of a run, given the events before it, the last one first. -/
def Along (P : List Event → List Arg → Report W → Prop) :
    List Event → Boot W → List (Command W) → Prop
  | _, _, [] => True
  | past, b, cmd::rest =>
    P past cmd.argv (cmd.report c b) ∧
      ∀ r b', (cmd.report c b).after = some (r, b') →
        Along P ((cmd.report c b).event::past) b' rest

/-- The stages that have run since the last `start`. -/
@[grind]
def ranSince : List Event → List (Stage × Option ℤ)
  | [] => []
  | .started _::_ => []
  | .ran k ret::past => (k, ret)::ranSince past
  | .refused::past => ranSince past

/-- Whether the last `start` succeeded. -/
@[grind]
def lastStart : List Event → Bool
  | [] => false
  | .started ok::_ => ok
  | .ran _ _::past => lastStart past
  | .refused::past => lastStart past

def Failed (ret : Option ℤ) : Prop := ∃ r, ret = some r ∧ r ≠ 0

/-- The last run of the stage since the last `start` has failed. -/
def LeftFailed (past : List Event) (k : Stage) : Prop :=
  ∃ ret, (ranSince past).find? (fun x => x.1 = k) = some (k, ret) ∧ Failed ret

/-! ## The state -/

/-- The state has the bits of the stages that have run. -/
def Recorded (past : List Event) (s : ℕ) : Prop :=
  ∀ i, s.testBit i = true ↔
    (i = 0 ∧ lastStart past = true) ∨ ∃ x ∈ ranSince past, x.1.bit = i

theorem bit_pos (k : Stage) (hk : k ≠ .start) : 0 < k.bit := by
  cases k with
  | start => exact absurd rfl hk
  | _ => decide

theorem lt_two_pow_iff (s n : ℕ) : s < 2^n ↔ ∀ i, s.testBit i = true → i < n := by
  constructor
  · intro h i hi
    by_contra hn
    rw [Nat.testBit_lt_two_pow (h.trans_le (Nat.pow_le_pow_right two_pos (not_lt.mp hn)))] at hi
    exact Bool.false_ne_true hi
  · intro h
    apply Nat.lt_pow_two_of_testBit
    intro i hi
    by_contra hs
    have := h i (by simpa using hs)
    omega

/-- The order check passes when only stages of lower order have run. -/
theorem Recorded.lt_iff (past : List Event) (s : ℕ) (h : Recorded past s) (k : Stage)
    (hk : k ≠ .start) : s < k.state ↔ ∀ x ∈ ranSince past, x.1.bit < k.bit := by
  rw [Stage.state, lt_two_pow_iff]
  constructor
  · intro hs x hx
    exact hs _ ((h _).mpr (.inr ⟨x, hx, rfl⟩))
  · intro hx i hi
    rcases (h i).mp hi with hi | ⟨x, hm, rfl⟩
    · rw [hi.1]
      exact bit_pos k hk
    · exact hx x hm

theorem recorded_powerOn : Recorded [] 0 := by
  intro i
  simp [lastStart, ranSince]

theorem recorded_started (past : List Event) (argv : List Arg) (m : Machine W) :
    Recorded (.started ((bootmStart c argv m).1 = 0)::past) (bootmStart c argv m).2.state := by
  intro i
  unfold bootmStart
  split
  · rw [Stage.state, Nat.testBit_two_pow, decide_eq_true_eq]
    simp only [lastStart, ranSince, List.not_mem_nil, false_and, exists_false, or_false,
      decide_true, and_true]
    exact eq_comm
  · simp [lastStart, ranSince]

theorem recorded_ran (past : List Event) (s : ℕ) (h : Recorded past s) (k : Stage)
    (ret : Option ℤ) : Recorded (.ran k ret::past) (s ||| k.state) := by
  intro i
  rw [Nat.testBit_or, Bool.or_eq_true, h i, Stage.state, Nat.testBit_two_pow]
  simp only [lastStart, ranSince, List.mem_cons, exists_eq_or_imp, decide_eq_true_eq]
  rw [or_assoc, or_comm (a := ∃ x ∈ ranSince past, x.1.bit = i)]

/-! ## One sub-command -/

/-- What a sub-command can do. -/
theorem report_cases (argv : List Arg) (b : Boot W) :
    (findCmdTbl (argv.getD 1 []) = none ∧
      doBootmSubcommand c argv b = ⟨.refused, some (cmdRetUsage, b)⟩) ∨
    (findCmdTbl (argv.getD 1 []) = some .start ∧ doBootmSubcommand c argv b =
      ⟨.started ((bootmStart c argv.tail b.machine).1 = 0),
        some (bootmStart c argv.tail b.machine)⟩) ∨
    ∃ k, findCmdTbl (argv.getD 1 []) = some k ∧ k ≠ .start ∧
      ((k.state ≤ b.state ∧
          doBootmSubcommand c argv b = ⟨.refused, some (cmdRetUsage, b)⟩) ∨
        (b.state < k.state ∧ runStage c argv b.machine k = none ∧
          doBootmSubcommand c argv b = ⟨.ran k none, none⟩) ∨
        (b.state < k.state ∧ ∃ ret m, runStage c argv b.machine k = some (ret, m) ∧
          doBootmSubcommand c argv b =
            ⟨.ran k (some ret), some (subcommandRet k ret, ⟨b.state ||| k.state, m⟩)⟩)) := by
  unfold doBootmSubcommand
  split
  · exact .inl ⟨by assumption, rfl⟩
  · exact .inr (.inl ⟨by assumption, rfl⟩)
  · rename_i k hk hf
    refine .inr (.inr ⟨k, hf, hk, ?_⟩)
    by_cases hs : k.state ≤ b.state
    · exact .inl ⟨hs, by rw [if_pos hs]⟩
    · rw [if_neg hs]
      cases hr : runStage c argv b.machine k with
      | none => exact .inr (.inl ⟨by omega, rfl, rfl⟩)
      | some r => exact .inr (.inr ⟨by omega, r.1, r.2, rfl, rfl⟩)

/-- The events and the state stay in step. -/
theorem recorded_report (past : List Event) (argv : List Arg) (b : Boot W)
    (h : Recorded past b.state) (r : ℤ) (b' : Boot W)
    (ha : (doBootmSubcommand c argv b).after = some (r, b')) :
    Recorded ((doBootmSubcommand c argv b).event::past) b'.state := by
  rcases report_cases c argv b with ⟨-, e⟩ | ⟨-, e⟩ | ⟨k, -, -, ⟨-, e⟩ | ⟨-, -, e⟩ | ⟨-, ret, m, -, e⟩⟩
  · rw [e] at ha ⊢
    cases ha
    exact h
  · rw [e] at ha ⊢
    have hb : bootmStart c argv.tail b.machine = (r, b') := Option.some.inj ha
    have hr := recorded_started c past argv.tail b.machine
    rw [hb] at hr ⊢
    exact hr
  · rw [e] at ha ⊢
    cases ha
    exact h
  · rw [e] at ha
    cases ha
  · rw [e] at ha ⊢
    cases ha
    exact recorded_ran past b.state h k _

/-- A rule for runs: what holds of one sub-command in a recorded state holds of all. -/
theorem along_of_recorded (P : List Event → List Arg → Report W → Prop)
    (hP : ∀ past argv b, Recorded past b.state → P past argv (doBootmSubcommand c argv b))
    (past : List Event) (b : Boot W) (h : Recorded past b.state) (cmds : List (Command W)) :
    Along c P past b cmds := by
  induction cmds generalizing past b with
  | nil => trivial
  | cons cmd rest ih =>
    constructor
    · exact hP past cmd.argv (cmd.before b) h
    · intro r b' ha
      exact ih _ _ (recorded_report c past cmd.argv (cmd.before b) h r b' ha)

/-- A stage runs when it is asked for and the order check passes. -/
theorem ran_iff (argv : List Arg) (b : Boot W) (k : Stage) :
    (∃ ret, (doBootmSubcommand c argv b).event = .ran k ret) ↔
      findCmdTbl (argv.getD 1 []) = some k ∧ k ≠ .start ∧ b.state < k.state := by
  rcases report_cases c argv b with
    ⟨hf, e⟩ | ⟨hf, e⟩ | ⟨j, hf, hj, ⟨hs, e⟩ | ⟨hs, -, e⟩ | ⟨hs, ret, m, -, e⟩⟩
  · simp only [e, hf, reduceCtorEq, exists_false, false_and]
  · simp only [e, hf, Option.some.injEq, reduceCtorEq, exists_false, false_iff]
    rintro ⟨rfl, hk, -⟩
    exact hk rfl
  · simp only [e, hf, Option.some.injEq, reduceCtorEq, exists_false, false_iff]
    rintro ⟨rfl, -, hk⟩
    exact absurd hk (not_lt.mpr hs)
  · simp only [e, hf, Event.ran.injEq, Option.some.injEq, exists_and_left, exists_eq', and_true]
    constructor
    · rintro rfl
      exact ⟨rfl, hj, hs⟩
    · exact And.left
  · simp only [e, hf, Event.ran.injEq, Option.some.injEq, exists_and_left, exists_eq', and_true]
    constructor
    · rintro rfl
      exact ⟨rfl, hj, hs⟩
    · exact And.left

/-- The bit of a stage that has run is set, whatever its case gave. -/
theorem ran_recorded (argv : List Arg) (b : Boot W) (k : Stage) (ret : Option ℤ)
    (he : (doBootmSubcommand c argv b).event = .ran k ret) (r : ℤ) (b' : Boot W)
    (ha : (doBootmSubcommand c argv b).after = some (r, b')) :
    b'.state = b.state ||| k.state := by
  rcases report_cases c argv b with
    ⟨-, e⟩ | ⟨-, e⟩ | ⟨j, -, -, ⟨-, e⟩ | ⟨-, -, e⟩ | ⟨-, ret', m, -, e⟩⟩ <;>
      rw [e] at he ha <;> cases he <;> cases ha
  rfl

/-! ## The order of the stages -/

/-- The stages as a machine that a failure stops until the stage is tried again. -/
structure Guarded (past : List Event) (_argv : List Arg) (r : Report W) : Prop where
  started : ∀ k ret, r.event = .ran k ret → lastStart past = true
  depends : ∀ k ret, r.event = .ran k ret → ∀ j, j.bit < k.bit → ¬LeftFailed past j
  retry : ∀ k ret, r.event = .ran k ret → Failed ret →
    ∀ v b, r.after = some (v, b) → b.state.testBit k.bit = false
  ordered : ∀ k ret, r.event = .ran k ret → ∀ x ∈ ranSince past, x.1.bit ≤ k.bit

/-- The stages as the code has them: each runs once after a `start`, in their order. -/
structure Ordered (past : List Event) (argv : List Arg) (r : Report W) : Prop where
  /-- Whether stages of lower order have run or failed plays no part. -/
  runs : lastStart past = true → ∀ k, k ≠ .start → findCmdTbl (argv.getD 1 []) = some k →
    ((∃ ret, r.event = .ran k ret) ↔ ∀ x ∈ ranSince past, x.1.bit < k.bit)
  recorded : ∀ k ret, r.event = .ran k ret →
    ∀ v b, r.after = some (v, b) → b.state.testBit k.bit = true
  once : ∀ k ret, (k, ret) ∈ ranSince past → ∀ ret', r.event ≠ .ran k ret'
  ordered : ∀ k ret, r.event = .ran k ret → ∀ x ∈ ranSince past, x.1.bit ≤ k.bit

theorem report_ordered (past : List Event) (argv : List Arg) (b : Boot W)
    (h : Recorded past b.state) : Ordered past argv (doBootmSubcommand c argv b) := by
  have lower (k : Stage) (ret : Option ℤ) (he : (doBootmSubcommand c argv b).event = .ran k ret) :
      ∀ x ∈ ranSince past, x.1.bit < k.bit := by
    have hk := (ran_iff c argv b k).mp ⟨ret, he⟩
    exact (h.lt_iff past b.state k hk.2.1).mp hk.2.2
  constructor
  · intro _ k hk hf
    rw [ran_iff, hf, ← h.lt_iff past b.state k hk]
    exact ⟨fun e => e.2.2, fun e => ⟨rfl, hk, e⟩⟩
  · intro k ret he v b' ha
    rw [ran_recorded c argv b k ret he v b' ha, Nat.testBit_or, Stage.state,
      Nat.testBit_two_pow_self, Bool.or_true]
  · intro k ret hm ret' he
    exact absurd (lower k ret' he _ hm) (lt_irrefl _)
  · intro k ret he x hx
    exact (lower k ret he x hx).le

/-- In every sequence of sub-commands from power-on, the stages run in their order and once. -/
theorem subcommands_ordered (m : Machine W) (cmds : List (Command W)) :
    Along c Ordered [] ⟨0, m⟩ cmds :=
  along_of_recorded c Ordered (report_ordered c) [] ⟨0, m⟩ recorded_powerOn cmds

/-- A legacy kernel image with a compression type that no decompressor takes. -/
def unknownCompression : Callees Unit where
  getenvYesno _ := true
  bootStartLmb _ := ()
  bootGetKernel _ m := (0x1000000,
    ⟨{ m.headers with legacyHdrValid := true, os := ⟨0, 0, 0x1000040, 0x1000, 0, 0, 0, 0⟩ }, ()⟩)
  genimgGetFormat _ _ := .legacy
  imageGetType _ _ := ihTypeKernel
  imageGetComp _ _ := 7
  imageGetOs _ _ := ihOsLinux
  imageGetImageEnd _ _ := 0x1001040
  imageGetLoad _ _ := 0x8000
  imageGetEp _ := 0x8000
  fitImageGetType m := (true, m)
  fitImageGetComp m := (true, m)
  fitImageGetOs m := (true, m)
  fitGetEnd _ := 0
  fitImageGetLoad m := (true, m)
  fitImageGetEntry m := (true, m)
  bootGetRamdisk _ m := (false, m)
  bootGetFdt _ m := (false, m)
  setWorkingFdtAddr _ _ := ()
  memmoveWd _ _ _ _ := ()
  decompress _ := none
  flushCache _ _ _ := ()
  lmbReserve _ _ _ := ()
  bootRamdiskHigh _ _ m := (0, m)
  setenvInitrd _ _ := ()
  bootFdtAddMemRsvRegions _ _ := ()
  bootRelocateFdt m := (0, m)
  prebootOs _ := ()
  bootOs os := if os = ihOsLinux then
      some fun flag _ m =>
        if flag = Stage.go.state then none
        else some (if flag = Stage.prep.state then 0 else -1, m)
    else none

def Command.sub (k : Stage) : Command Unit := ⟨["bootm".toList, k.name], id⟩

/-- `loados` runs without a `start`; after a failure its bit is set, and `ramdisk` runs. -/
theorem failed_stage_passed :
    ¬Along unknownCompression Guarded [] ⟨0, Headers.zero, ()⟩ [.sub .loados] ∧
    ¬Along unknownCompression Guarded [] ⟨0, Headers.zero, ()⟩ [.sub .start, .sub .loados] ∧
    ¬Along unknownCompression
      (fun past _ r => ∀ k ret, r.event = .ran k ret → ∀ j, j.bit < k.bit → ¬LeftFailed past j)
      [] ⟨0, Headers.zero, ()⟩ [.sub .start, .sub .loados, .sub .ramdisk] := by
  refine ⟨?_, ?_, ?_⟩
  · intro h
    exact Bool.false_ne_true (h.1.started .loados (some 0) rfl)
  · intro h
    have := (h.2 _ _ rfl).1.retry .loados (some (-3)) rfl ⟨-3, rfl, by decide⟩ _ _ rfl
    exact Bool.false_ne_true this.symm
  · intro h
    exact ((h.2 _ _ rfl).2 _ _ rfl).1 .ramdisk (some 0) rfl .loados (by decide)
      ⟨some (-3), rfl, -3, rfl, by decide⟩

end UBoot.Bootm
