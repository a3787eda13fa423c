import UBoot.JournalReplay

/-!
# Recovering a volume from its journal

A journal of single-descriptor transactions that begins at the first block of its
file is replayed as its format says, and a second recovery changes nothing. For
other contents of the journal it is said when the two walks come to an end.
-/

set_option autoImplicit false

namespace UBoot.Journal

variable (fs : Fs)

/-! ## Writes and the volume -/

def applyWrites (disk : ℕ → Block) (ps : List (ℕ × Block)) : ℕ → Block :=
  ps.foldl (fun d p => Function.update d p.1 p.2) disk

/-- The volume is what the writes made of it. -/
def Traced (m m' : Mem) : Prop :=
  ∃ ps, m'.puts = m.puts ++ ps ∧ m'.disk = applyWrites m.disk ps

theorem Traced.refl (m : Mem) : Traced m m := ⟨[], (List.append_nil _).symm, rfl⟩

theorem Traced.trans (m m' m'' : Mem) (h : Traced m m') (h' : Traced m' m'') : Traced m m'' := by
  obtain ⟨ps, h1, h2⟩ := h
  obtain ⟨qs, h3, h4⟩ := h'
  refine ⟨ps ++ qs, by rw [h3, h1, List.append_assoc], ?_⟩
  rw [h4, h2]
  exact (List.foldl_append).symm

theorem traced_put (m : Mem) (n : ℕ) (b : Block) : Traced m (putExt4 fs m n b) := by
  unfold putExt4
  split_ifs
  · exact ⟨[(n, b)], rfl, rfl⟩
  · exact .refl m

theorem traced_replay (sequence : UInt32) (ts : List Tag) (i : ℕ) (m : Mem) :
    Traced m (replay fs sequence ts i m) := by
  induction ts generalizing i m with
  | nil => exact .refl m
  | cons t ts ih =>
    rw [replay]
    split_ifs
    · exact ih (i+1) m
    · exact (traced_put fs m _ _).trans _ _ _ (ih (i+1) _)

theorem traced_turn (mode : Mode) (w w' : Walk) (h : turn fs mode w = .next w' ∨ turn fs mode w = .stop w') :
    Traced w.mem w'.mem := by
  have hcommit : Traced w.mem (commitTurn fs mode w).mem := by
    rw [commitTurn_mem]
    split_ifs
    · exact traced_replay fs _ _ _ _
    · exact .refl _
  have hrevoke : ∀ b, Traced w.mem (revokeTurn mode w b).mem := by
    intro b
    unfold revokeTurn
    simp only
    split_ifs
    · exact ⟨[], (List.append_nil _).symm, rfl⟩
    · exact .refl _
  unfold turn at h
  simp only at h
  split_ifs at h
  · obtain h | h := h
    · exact nomatch h
    · exact Turn.stop.inj h ▸ .refl _
  · simp at h
  · obtain h | h := h
    · exact Turn.next.inj h ▸ .refl _
    · exact nomatch h
  · obtain h | h := h
    · exact Turn.next.inj h ▸ hcommit
    · exact nomatch h
  · obtain h | h := h
    · exact Turn.next.inj h ▸ hrevoke _
    · exact nomatch h
  · obtain h | h := h
    · exact Turn.next.inj h ▸ .refl _
    · exact nomatch h

theorem traced_walk (mode : Mode) (fuel : ℕ) (w w' : Walk) (h : walk fs mode fuel w = some (.ok w')) :
    Traced w.mem w'.mem := by
  induction fuel generalizing w with
  | zero => exact nomatch h
  | succ fuel ih =>
    rw [walk] at h
    cases ht : turn fs mode w with
    | next w1 =>
      rw [ht] at h
      exact (traced_turn fs mode w w1 (.inl ht)).trans _ _ _ (ih w1 h)
    | stop w1 =>
      rw [ht] at h
      obtain rfl := Except.ok.inj (Option.some.inj h)
      exact traced_turn fs mode w w1 (.inr ht)
    | fail m =>
      rw [ht] at h
      simp at h

/-! ## The superblocks -/

def marked (b : Block) : Block := b.set fs.incompatWord (word b fs.incompatWord ||| incompatRecover)

theorem markRecover_eq (m : Mem) (h : (fs.superBlock+1)*fs.sectPerBlk ≤ fs.totalSect) :
    markRecover fs m =
      { m with disk := Function.update m.disk fs.superBlock (marked fs (m.disk fs.superBlock))
               puts := m.puts ++ [(fs.superBlock, marked fs (m.disk fs.superBlock))]
               needsRecovery := true } := by
  simp only [markRecover, putExt4, if_pos h]
  rfl

theorem word_set_self (b : Block) (i : ℕ) (x : UInt32) (h : i < b.length) : word (b.set i x) i = x := by
  unfold word
  rw [List.getD_eq_getElem?_getD, List.getElem?_set_self h]
  rfl

theorem word_set_ne (b : Block) (i j : ℕ) (x : UInt32) (h : i ≠ j) : word (b.set i x) j = word b j := by
  unfold word
  rw [List.getD_eq_getElem?_getD, List.getElem?_set_ne h, List.getD_eq_getElem?_getD]

theorem marked_marked (b : Block) : marked fs (marked fs b) = marked fs b := by
  unfold marked
  by_cases h : fs.incompatWord < b.length
  · rw [word_set_self b _ _ h, List.set_set, UInt32.or_assoc, UInt32.or_self]
  · have hset : ∀ x, b.set fs.incompatWord x = b := fun x => List.set_eq_of_length_le (by omega)
    simp only [hset]

/-- The journal superblock after a recovery. -/
def closed (jsb : Block) (sequence : UInt32) : Block := (jsb.set 7 1).set 6 (sequence+1)

/-- What a recovery writes at its end. -/
def closing (disk : ℕ → Block) (jsb : Block) (sequence : UInt32) : List (ℕ × Block) :=
  [(fs.superBlock, marked fs (disk fs.superBlock)), (fs.journalBlock 0, closed jsb sequence)]

theorem finish_recover (m : Mem) (jsb : Block) (sequence : UInt32) (hb : 0 < fs.blockWords)
    (hs : (fs.superBlock+1)*fs.sectPerBlk ≤ fs.totalSect)
    (hj : (fs.journalBlock 0+1)*fs.sectPerBlk ≤ fs.totalSect)
    (hnear : fs.journalBlock 0*fs.blksz < 4294967296) :
    finish fs .recover jsb sequence m =
      ⟨applyWrites m.disk (closing fs m.disk jsb sequence), [], true,
        m.puts ++ closing fs m.disk jsb sequence⟩ := by
  simp only [finish, target_near fs _ hb hnear, putExt4, if_pos hj, markRecover_eq fs m hs,
    List.append_assoc]
  rfl

theorem closed_words (jsb : Block) (sequence : UInt32) (h : 256 ≤ jsb.length) :
    word (closed (jsb.set 9 (word jsb 9 ||| compatChecksum)) sequence) 5 = word jsb 5 ∧
      word (closed (jsb.set 9 (word jsb 9 ||| compatChecksum)) sequence) 6 = sequence+1 ∧
      word (closed (jsb.set 9 (word jsb 9 ||| compatChecksum)) sequence) 7 = 1 := by
  unfold closed
  refine ⟨?_, ?_, ?_⟩
  · rw [word_set_ne _ _ _ _ (by decide), word_set_ne _ _ _ _ (by decide),
      word_set_ne _ _ _ _ (by decide)]
  · rw [word_set_self]
    simp only [List.length_set]
    omega
  · rw [word_set_ne _ _ _ _ (by decide), word_set_self]
    simp only [List.length_set]
    omega

/-! ## A well-formed log -/

theorem LogLies.first_block (blocks : ℕ → Block) (log : Log) (sequence : UInt32)
    (ts : List (List Item)) (h : LogLies fs blocks log 0 sequence ts)
    (hs : ts ≠ [] ∨ log.unfinished ≠ []) : word (blocks 0) 2 = sequence := by
  have hitems : ∀ (items : List Item) (n' : ℕ), items ≠ [] → Lies fs blocks sequence 0 items n' →
      word (blocks 0) 2 = sequence := by
    intro items n' hne hl
    cases items with
    | nil => exact absurd rfl hne
    | cons item items =>
      cases item with
      | revoke numbers => exact hl.1.header.2.2
      | desc es => exact hl.1.header.2.2
  cases ts with
  | nil => exact hitems _ _ (hs.resolve_left fun h => h rfl) h.1
  | cons t ts =>
    obtain ⟨n', h1, h2, -⟩ := h
    by_cases ht : t = []
    · subst ht
      obtain rfl : 0 = n' := h1
      exact h2.2.2
    · exact hitems t n' ht h1

theorem checkJournalState_eq (mode : Mode) (fuel : ℕ) (m : Mem)
    (hgo : ¬(m.needsRecovery = false ∨ word (m.jsb fs) 7 = 0)) :
    checkJournalState fs mode fuel m =
      match walk fs mode fuel ⟨m.first fs, m.sequence fs, false, false, 0, m⟩ with
      | none => none
      | some (.error m) => some (.error m)
      | some (.ok w) => some (.ok (finish fs mode
          ((m.jsb fs).set 9 (word (m.jsb fs) 9 ||| compatChecksum)) w.sequence w.mem)) := by
  unfold Mem.first Mem.sequence Mem.jsb at *
  unfold checkJournalState
  exact if_neg hgo

theorem checkJournalState_walk (mode : Mode) (fuel : ℕ) (m : Mem) (w : Walk)
    (hgo : ¬(m.needsRecovery = false ∨ word (m.jsb fs) 7 = 0))
    (h : walk fs mode fuel ⟨m.first fs, m.sequence fs, false, false, 0, m⟩ = some (.ok w)) :
    checkJournalState fs mode fuel m = some (.ok (finish fs mode
      ((m.jsb fs).set 9 (word (m.jsb fs) 9 ||| compatChecksum)) w.sequence w.mem)) := by
  rw [checkJournalState_eq fs mode fuel m hgo, h]

section Recovery

variable (m : Mem) (log : Log) (hwf : WellFormed fs m log) (hsi : Simple fs m log)

include hwf in
theorem WellFormed.blockWords : 256 ≤ fs.blockWords ∧ fs.blockWords ≤ 16384 := by
  have := hwf.words
  omega

include hsi

theorem ring_straight (n : ℕ) (hn : n ≤ log.size) :
    m.ring fs n = m.disk (fs.journalBlock (m.first fs+n)) := by
  have h1 := hsi.straight
  unfold Mem.ring
  rw [hsi.start, Nat.sub_self, Nat.zero_add, Nat.mod_eq_of_lt (by omega)]

include hwf

theorem placed_entries (t : List Item) (ht : t ∈ log.committed) (e : Entry) (he : e ∈ entries t) :
    Placed fs log (m.first fs) e where
  near := hsi.near t ht e he
  inside := (hwf.targets t ht e he).1
  apart := fun n hn => (hwf.targets t ht e he).2 _ (by have := hsi.straight; omega)

/-- The walk of a scan or of a recovery over the log. -/
theorem walk_wellFormed (mode : Mode) (m1 : Mem) (hd : m1.disk = m.disk) :
    ∃ w', walk fs mode (turns log log.committed) ⟨m.first fs, m.sequence fs, false, false, 0, m1⟩ =
        some (.ok w') ∧
      w'.sequence = m.sequence fs+UInt32.ofNat log.committed.length ∧
      Chain fs (m.ring fs) log (m.first fs) mode (m.sequence fs) log.committed m1 w'.mem := by
  have hb := hwf.blockWords
  refine walk_log fs (m.ring fs) log (m.first fs) mode ⟨by omega, hb.2⟩ log.committed 0 (m.sequence fs) _
    hwf.lies ?_ ⟨rfl, rfl, rfl, rfl, fun es he => nomatch he⟩ hsi.single
    (placed_entries fs m log hwf hsi) hsi.ends
  intro n hn
  change m1.disk _ = _
  rw [hd, ring_straight fs m log hsi n hn]

/-- All that is written: the blocks of the log and the two superblocks. -/
def logWrites (m : Mem) (log : Log) : List (ℕ × Block) :=
  writes log.unfinished log.committed ++
    closing fs (applyWrites m.disk (writes log.unfinished log.committed))
      ((m.jsb fs).set 9 (word (m.jsb fs) 9 ||| compatChecksum))
      (m.sequence fs+UInt32.ofNat log.committed.length)

omit hsi in
theorem WellFormed.goes : ¬(m.needsRecovery = false ∨ word (m.jsb fs) 7 = 0) := by
  rintro (h | h)
  · rw [hwf.recover] at h
    exact nomatch h
  · have h1 := hwf.first
    have h2 := hwf.start.1
    unfold Mem.start at h2
    rw [h] at h2
    exact absurd (le_trans h1 h2) (by decide)

theorem init_wellFormed : initJournal fs (turns log log.committed) m =
    some (.ok ⟨applyWrites m.disk (logWrites fs m log), [], true, m.puts ++ logWrites fs m log⟩) := by
  have hb := hwf.blockWords
  have hlen := hwf.start
  -- the scan collects the revoke records
  obtain ⟨w1, h1, -, h3⟩ := walk_wellFormed fs m log hwf hsi .scan { m with revokes := [] } rfl
  have hscan := chain_scan fs _ log _ _ _ _ _ h3
  have hcheck1 := checkJournalState_walk fs .scan _ { m with revokes := [] } w1 hwf.goes h1
  have hmem := hscan.same
  -- the recovery writes the blocks
  obtain ⟨w2, k1, k2, k3⟩ := walk_wellFormed fs m log hwf hsi .recover w1.mem (by rw [hmem])
  have hcheck2 := checkJournalState_walk fs .recover _ w1.mem w2 (by rw [hmem]; exact hwf.goes)
    (by rw [hmem] at k1 ⊢; exact k1)
  obtain ⟨hputs, -⟩ := chain_recover fs _ log _ _ _ _ _ [] k3 (fun r hr => nomatch hr)
    (by have := hsi.increasing; omega) (by rw [hscan.scan rfl]; rfl) hsi.own hsi.plain
  obtain ⟨ps, t1, t2⟩ := traced_walk fs .recover _ _ _ k1
  have hps : ps = writes log.unfinished log.committed := List.append_cancel_left (t1.symm.trans hputs)
  have hdisk : w1.mem.disk = m.disk := by rw [hmem]
  have hprev : w1.mem.puts = m.puts := by rw [hmem]
  have hjsb : w1.mem.jsb fs = m.jsb fs := by
    unfold Mem.jsb
    rw [hdisk]
  change w2.mem.disk = applyWrites w1.mem.disk ps at t2
  unfold initJournal
  rw [hcheck1]
  change checkJournalState fs .recover _ w1.mem = _
  rw [hcheck2, finish_recover fs _ _ _ (by omega) hwf.super.1 (hwf.inside 0 (by omega)) hsi.nearJournal,
    k2, hjsb, t2, hputs, hdisk, hprev, hps, List.append_assoc]
  unfold logWrites applyWrites
  rw [List.foldl_append]

/-- The state of the volume after the recovery. -/
def recovered (m : Mem) (log : Log) : Mem :=
  ⟨applyWrites m.disk (logWrites fs m log), [], true, m.puts ++ logWrites fs m log⟩

omit hwf hsi in
theorem writes_targets (ts : List (List Item)) (unfinished : List Item) (p : ℕ × Block)
    (h : p ∈ writes unfinished ts) : ∃ t ∈ ts, ∃ e ∈ entries t, p.1 = e.block.toNat := by
  induction ts with
  | nil => exact nomatch h
  | cons t ts ih =>
    obtain h | h := List.mem_append.mp h
    · obtain ⟨e, he, rfl⟩ := List.mem_map.mp h
      exact ⟨t, List.mem_cons_self, e, List.mem_of_mem_filter he, rfl⟩
    · obtain ⟨t', ht, e, he, hp⟩ := ih h
      exact ⟨t', List.mem_cons_of_mem _ ht, e, he, hp⟩

omit hwf hsi in
theorem applyWrites_other (disk : ℕ → Block) (ps : List (ℕ × Block)) (n : ℕ)
    (h : ∀ p ∈ ps, p.1 ≠ n) : applyWrites disk ps n = disk n := by
  induction ps generalizing disk with
  | nil => rfl
  | cons p ps ih =>
    change applyWrites (Function.update disk p.1 p.2) ps n = disk n
    rw [ih _ fun q hq => h q (List.mem_cons_of_mem _ hq),
      Function.update_of_ne (h p List.mem_cons_self).symm]

omit hwf hsi in
theorem applyWrites_closing (disk : ℕ → Block) (jsb : Block) (sequence : UInt32) (n : ℕ) :
    applyWrites disk (closing fs disk jsb sequence) n =
      if n = fs.journalBlock 0 then closed jsb sequence
      else if n = fs.superBlock then marked fs (disk fs.superBlock)
      else disk n := by
  unfold applyWrites closing
  simp only [List.foldl_cons, List.foldl_nil, Function.update_apply]

omit hwf hsi in
theorem recovered_disk (n : ℕ) : (recovered fs m log).disk n =
    applyWrites (applyWrites m.disk (writes log.unfinished log.committed))
      (closing fs (applyWrites m.disk (writes log.unfinished log.committed))
        ((m.jsb fs).set 9 (word (m.jsb fs) 9 ||| compatChecksum))
        (m.sequence fs+UInt32.ofNat log.committed.length)) n := by
  unfold recovered logWrites applyWrites
  rw [List.foldl_append]

omit hwf hsi in
theorem recovered_jsb : (recovered fs m log).jsb fs =
    closed ((m.jsb fs).set 9 (word (m.jsb fs) 9 ||| compatChecksum))
      (m.sequence fs+UInt32.ofNat log.committed.length) := by
  unfold Mem.jsb
  rw [recovered_disk, applyWrites_closing, if_pos rfl]
  rfl

omit hsi in
/-- The blocks of the journal behind its superblock stay as they are. -/
theorem recovered_journal (i : ℕ) (hi : i < m.maxlen fs) (h0 : i ≠ 0) :
    (recovered fs m log).disk (fs.journalBlock i) = m.disk (fs.journalBlock i) := by
  have hlen := hwf.start
  rw [recovered_disk, applyWrites_closing,
    if_neg (fun h => h0 (hwf.distinct i 0 hi (by omega) h)), if_neg (hwf.super.2 i hi),
    applyWrites_other]
  intro p hp
  obtain ⟨t, ht, e, he, hpe⟩ := writes_targets _ _ p hp
  rw [hpe]
  exact ((hwf.targets t ht e he).2 i hi).symm

omit hwf hsi in
theorem add_ne_self (sequence : UInt32) (k : ℕ) (h : k+1 < 4294967296) :
    sequence ≠ sequence+UInt32.ofNat k+1 := by
  intro heq
  have hn := congrArg UInt32.toNat heq
  have hlt := sequence.toNat_lt
  simp only [UInt32.toNat_add, UInt32.toNat_ofNat', UInt32.reduceToNat] at hn
  omega

/-- A second recovery stops at the first block. -/
theorem init_again : ∃ m', initJournal fs 1 (recovered fs m log) = some (.ok m') ∧
    ∀ n, n ≠ fs.journalBlock 0 → m'.disk n = (recovered fs m log).disk n := by
  have hb := hwf.blockWords
  have hlen := hwf.start
  have hfirst := hwf.first
  have hseq := hsi.increasing
  have hjlen : (m.jsb fs).length = fs.blockWords := hwf.length _
  obtain ⟨hw5, hw6, hw7⟩ := closed_words (m.jsb fs) (m.sequence fs+UInt32.ofNat log.committed.length)
    (by omega)
  rw [← recovered_jsb] at hw5 hw6 hw7
  have hgo : ¬((recovered fs m log).needsRecovery = false ∨ word ((recovered fs m log).jsb fs) 7 = 0) := by
    rw [hw7]
    rintro (h | h)
    · exact Bool.noConfusion h
    · exact absurd h (by decide)
  have hstop : ∀ (mode : Mode), walk fs mode 1 ⟨(recovered fs m log).first fs,
      (recovered fs m log).sequence fs, false, false, 0, recovered fs m log⟩ =
      some (.ok ⟨(recovered fs m log).first fs, (recovered fs m log).sequence fs, false, false, 0,
        recovered fs m log⟩) := by
    intro mode
    have hturn := turn_stop fs mode ⟨(recovered fs m log).first fs,
      (recovered fs m log).sequence fs, false, false, 0, recovered fs m log⟩ (by
        change word ((recovered fs m log).disk (fs.journalBlock (word _ 5).toNat)) 2 ≠ word _ 6
        have hblock := hwf.lies.first_block _ _ _ _ _ hwf.some
        rw [ring_straight fs m log hsi 0 (Nat.zero_le _)] at hblock
        rw [hw5, hw6, recovered_journal fs m log hwf _ (by exact lt_of_le_of_lt hlen.1 hlen.2)
          (by exact Nat.pos_iff_ne_zero.mp hfirst), show word (m.disk (fs.journalBlock
            (word (m.jsb fs) 5).toNat)) 2 = m.sequence fs from hblock]
        exact add_ne_self _ _ (by omega))
    rw [walk, hturn]
  have hscan := checkJournalState_walk fs .scan 1 (recovered fs m log) _ hgo (hstop .scan)
  have hrec := checkJournalState_walk fs .recover 1 (recovered fs m log) _ hgo (hstop .recover)
  rw [finish_recover fs _ _ _ (by omega) hwf.super.1 (hwf.inside 0 (by omega)) hsi.nearJournal] at hrec
  have hinit : initJournal fs 1 (recovered fs m log) =
      checkJournalState fs .recover 1 (recovered fs m log) := by
    simp only [initJournal]
    exact hscan ▸ rfl
  refine ⟨_, hinit.trans hrec, ?_⟩
  intro n hn
  change applyWrites (recovered fs m log).disk _ n = _
  rw [applyWrites_closing, if_neg hn]
  split_ifs with hs
  · subst hs
    rw [recovered_disk, applyWrites_closing, if_neg hn, if_pos rfl, marked_marked]
  · rfl

end Recovery

/-! ## Any journal -/

/-- A block with a type and a sequence number; the magic number is not looked at. -/
def Is (b : Block) (type sequence : UInt32) : Prop := word b 1 = type ∧ word b 2 = sequence

/-- From block `i` on the journal comes to an end: by a block with another sequence
number or a second descriptor block, and by none of another type before. The blocks
that the transactions name are not blocks of the journal. -/
inductive Ends (blocks : ℕ → Block) : ℕ → UInt32 → Bool → Prop where
  | other (i : ℕ) (sequence : UInt32) (running : Bool) : word (blocks i) 2 ≠ sequence →
      Ends blocks i sequence running
  | again (i : ℕ) (sequence : UInt32) : Is (blocks i) descriptorBlock sequence →
      Ends blocks i sequence true
  | desc (i : ℕ) (sequence : UInt32) : Is (blocks i) descriptorBlock sequence →
      (∀ t ∈ tags fs (blocks i), ∀ n, fs.journalBlock n ≠ fs.target t.block.toNat) →
      Ends blocks (i+(tags fs (blocks i)).length+1) sequence true → Ends blocks i sequence false
  | commit (i : ℕ) (sequence : UInt32) (running : Bool) : Is (blocks i) commitBlock sequence →
      Ends blocks (i+1) (sequence+1) false → Ends blocks i sequence running
  | revoke (i : ℕ) (sequence : UInt32) (running : Bool) : Is (blocks i) revokeBlock sequence →
      Ends blocks (i+1) sequence running → Ends blocks i sequence running

theorem replay_spares (sequence : UInt32) (ts : List Tag) (i : ℕ) (m : Mem)
    (h : ∀ t ∈ ts, ∀ n, fs.journalBlock n ≠ fs.target t.block.toNat) :
    (∀ n, (replay fs sequence ts i m).disk (fs.journalBlock n) = m.disk (fs.journalBlock n)) ∧
      (replay fs sequence ts i m).needsRecovery = m.needsRecovery := by
  induction ts generalizing i m with
  | nil => exact ⟨fun _ => rfl, rfl⟩
  | cons t ts ih =>
    have hrest := fun m' => ih (i+1) m' fun t' ht => h t' (List.mem_cons_of_mem _ ht)
    rw [replay]
    split_ifs
    · exact hrest m
    · obtain ⟨h1, h2⟩ := hrest (putExt4 fs m (fs.target t.block.toNat) (m.disk (fs.journalBlock i)))
      have hput : (∀ n, (putExt4 fs m (fs.target t.block.toNat)
          (m.disk (fs.journalBlock i))).disk (fs.journalBlock n) = m.disk (fs.journalBlock n)) ∧
          (putExt4 fs m (fs.target t.block.toNat) (m.disk (fs.journalBlock i))).needsRecovery =
            m.needsRecovery := by
        unfold putExt4
        split_ifs
        · exact ⟨fun n => Function.update_of_ne (h t List.mem_cons_self n) _ _, rfl⟩
        · exact ⟨fun _ => rfl, rfl⟩
      exact ⟨fun n => (h1 n).trans (hput.1 n), h2.trans hput.2⟩

/-- The walk with the journal as it is, and a transaction that leaves it so. -/
structure Sound (blocks : ℕ → Block) (i : ℕ) (sequence : UInt32) (running : Bool) (w : Walk) : Prop where
  i : w.i = i
  expects : w.sequence = sequence
  state : w.running = running
  dbFound : w.dbFound = running
  journal : ∀ n, w.mem.disk (fs.journalBlock n) = blocks n
  targets : running = true → ∀ t ∈ tags fs (blocks w.currDesc), ∀ n,
    fs.journalBlock n ≠ fs.target t.block.toNat

theorem sound_commit (mode : Mode) (blocks : ℕ → Block) (i : ℕ) (sequence : UInt32) (running : Bool)
    (w : Walk) (h : Sound fs blocks i sequence running w) :
    Sound fs blocks (i+1) (sequence+1) false (commitTurn fs mode w) ∧
      (commitTurn fs mode w).mem.needsRecovery = w.mem.needsRecovery := by
  have hgo : (w.running || !w.dbFound) = true := by
    rw [h.state, h.dbFound, Bool.or_not_self]
  have hmem : (∀ n, (commitTurn fs mode w).mem.disk (fs.journalBlock n) = blocks n) ∧
      (commitTurn fs mode w).mem.needsRecovery = w.mem.needsRecovery := by
    rw [commitTurn_mem]
    split_ifs with hc
    · rw [h.dbFound] at hc
      obtain ⟨h1, h2⟩ := replay_spares fs (word (blocks w.currDesc) 2) (tags fs (blocks w.currDesc))
        (w.currDesc+1) w.mem (h.targets hc.2)
      unfold recoverTransaction
      simp only [h.journal]
      exact ⟨fun n => (h1 n).trans (h.journal n), h2⟩
    · exact ⟨h.journal, rfl⟩
  refine ⟨⟨?_, ?_, ?_, rfl, hmem.1, fun h => nomatch h⟩, hmem.2⟩
  · simp only [commitTurn, if_pos hgo, h.i]
  · simp only [commitTurn, if_pos hgo, h.expects]
  · simp only [commitTurn, if_pos hgo]

/-- The walk comes to an end, with the journal as it was. -/
def Comes (mode : Mode) (blocks : ℕ → Block) (w : Walk) : Prop :=
  ∃ fuel r, walk fs mode fuel w = some r ∧ ∀ w', r = .ok w' →
    (∀ n, w'.mem.disk (fs.journalBlock n) = blocks n) ∧
      w'.mem.needsRecovery = w.mem.needsRecovery

theorem comes_next (mode : Mode) (blocks : ℕ → Block) (w w' : Walk) (h : turn fs mode w = .next w')
    (hn : w'.mem.needsRecovery = w.mem.needsRecovery) (hc : Comes fs mode blocks w') :
    Comes fs mode blocks w := by
  obtain ⟨fuel, r, h1, h2⟩ := hc
  refine ⟨fuel+1, r, (walk_next fs mode fuel w w' h).trans h1, fun w2 hr => ?_⟩
  exact ⟨(h2 w2 hr).1, (h2 w2 hr).2.trans hn⟩

theorem comes_stop (mode : Mode) (blocks : ℕ → Block) (w : Walk)
    (hj : ∀ n, w.mem.disk (fs.journalBlock n) = blocks n) (hs : word (blocks w.i) 2 ≠ w.sequence) :
    Comes fs mode blocks w := by
  have hturn := turn_stop fs mode w (by rw [hj]; exact hs)
  refine ⟨1, .ok w, by rw [walk, hturn], fun w' hw => ?_⟩
  obtain rfl := Except.ok.inj hw
  exact ⟨hj, rfl⟩

theorem comes_fail (mode : Mode) (blocks : ℕ → Block) (w : Walk) (m : Mem)
    (h : turn fs mode w = .fail m) : Comes fs mode blocks w :=
  ⟨1, .error m, by rw [walk, h], fun w' hw => nomatch hw⟩

theorem ends_comes (mode : Mode) (blocks : ℕ → Block) (i : ℕ) (sequence : UInt32) (running : Bool)
    (h : Ends fs blocks i sequence running) (w : Walk) (hw : Sound fs blocks i sequence running w) :
    Comes fs mode blocks w := by
  have hblock : w.mem.disk (fs.journalBlock w.i) = blocks i := by
    rw [hw.journal, hw.i]
  induction h generalizing w with
  | other i sequence running hs =>
    apply comes_stop fs mode blocks w hw.journal
    rw [hw.i, hw.expects]
    exact hs
  | again i sequence hb =>
    apply comes_fail fs mode blocks w w.mem
    rw [turn, hblock, if_neg (not_not.mpr (hb.2.trans hw.expects.symm)), if_pos hb.1, if_pos hw.state]
  | desc i sequence hb ht _ ih =>
    have hturn := turn_desc fs mode w _ hblock hb.1 (hb.2.trans hw.expects.symm) hw.state
    have hsound : Sound fs blocks (i+(tags fs (blocks i)).length+1) sequence true
        (descTurn fs w (blocks i)) := by
      refine ⟨?_, hw.expects, rfl, rfl, hw.journal, fun _ => ?_⟩
      · change w.i+_+1 = _
        rw [hw.i]
      · change ∀ t ∈ tags fs (blocks w.i), _
        rw [hw.i]
        exact ht
    exact comes_next fs mode blocks w _ hturn rfl
      (ih _ hsound (by rw [hsound.journal, hsound.i]))
  | commit i sequence running hb _ ih =>
    have hturn := turn_commit fs mode w _ hblock hb.1 (hb.2.trans hw.expects.symm)
    obtain ⟨hsound, hneeds⟩ := sound_commit fs mode blocks i sequence running w hw
    exact comes_next fs mode blocks w _ hturn hneeds (ih _ hsound (by rw [hsound.journal, hsound.i]))
  | revoke i sequence running hb _ ih =>
    have hturn := turn_revoke fs mode w _ hblock hb.1 (hb.2.trans hw.expects.symm)
    have hpush := scanned_push mode w (blocks i) _ rfl
    have hsound : Sound fs blocks (i+1) sequence running (revokeTurn mode w (blocks i)) := by
      refine ⟨congrArg (· + 1) hw.i, hw.expects, hw.state, hw.dbFound, fun n => ?_, hw.targets⟩
      rw [hpush.disk]
      exact hw.journal n
    have hneeds : (revokeTurn mode w (blocks i)).mem.needsRecovery = w.mem.needsRecovery := by
      rw [hpush.same]
    exact comes_next fs mode blocks w _ hturn hneeds (ih _ hsound (by rw [hsound.journal, hsound.i]))

theorem walk_mono (mode : Mode) (fuel extra : ℕ) (w : Walk) (r : Except Mem Walk)
    (h : walk fs mode fuel w = some r) : walk fs mode (fuel+extra) w = some r := by
  induction fuel generalizing w with
  | zero => exact nomatch h
  | succ fuel ih =>
    rw [Nat.add_right_comm, walk]
    rw [walk] at h
    cases ht : turn fs mode w with
    | next w' =>
      rw [ht] at h
      exact ih w' h
    | stop w' =>
      rw [ht] at h
      exact h
    | fail m =>
      rw [ht] at h
      exact h

/-- What is walked over ends. -/
def Terminating (m : Mem) : Prop :=
  m.needsRecovery = true → m.start fs ≠ 0 →
    Ends fs (fun n => m.disk (fs.journalBlock n)) (m.first fs) (m.sequence fs) false

theorem checkJournalState_error (mode : Mode) (fuel : ℕ) (m m' : Mem)
    (hgo : ¬(m.needsRecovery = false ∨ word (m.jsb fs) 7 = 0))
    (h : walk fs mode fuel ⟨m.first fs, m.sequence fs, false, false, 0, m⟩ = some (.error m')) :
    checkJournalState fs mode fuel m = some (.error m') := by
  rw [checkJournalState_eq fs mode fuel m hgo, h]

theorem init_terminates (m : Mem) (h : Terminating fs m) : ∃ fuel r, initJournal fs fuel m = some r := by
  by_cases hgo : m.needsRecovery = false ∨ word (m.jsb fs) 7 = 0
  · have hscan : checkJournalState fs .scan 0 { m with revokes := [] } =
        some (.ok { m with revokes := [] }) := by
      unfold Mem.jsb at hgo
      simp only [checkJournalState, if_pos hgo]
      rfl
    refine ⟨0, .ok (finish fs .recover (m.jsb fs) (m.sequence fs) { m with revokes := [] }), ?_⟩
    unfold initJournal
    rw [hscan]
    unfold Mem.jsb at hgo
    simp only [checkJournalState, if_pos hgo]
    rfl
  have hends := h (by simpa using fun hn => hgo (.inl hn))
    (fun h0 => hgo (.inr (UInt32.toNat_inj.mp h0)))
  obtain ⟨f1, r1, h1, h2⟩ := ends_comes fs .scan _ _ _ _ hends
    ⟨m.first fs, m.sequence fs, false, false, 0, { m with revokes := [] }⟩
    ⟨rfl, rfl, rfl, rfl, fun _ => rfl, fun hf => nomatch hf⟩
  cases r1 with
  | error m1 =>
    refine ⟨f1, .error m1, ?_⟩
    unfold initJournal
    rw [checkJournalState_error fs .scan f1 { m with revokes := [] } m1 hgo h1]
  | ok w1 =>
    obtain ⟨hj, hn⟩ := h2 w1 rfl
    have hjsb : w1.mem.jsb fs = m.jsb fs := hj 0
    have hgo1 : ¬(w1.mem.needsRecovery = false ∨ word (w1.mem.jsb fs) 7 = 0) := by
      rw [hn, hjsb]
      exact hgo
    obtain ⟨f2, r2, h3, -⟩ := ends_comes fs .recover _ _ _ _ hends
      ⟨w1.mem.first fs, w1.mem.sequence fs, false, false, 0, w1.mem⟩
      ⟨by rw [Mem.first, hjsb]; rfl, by rw [Mem.sequence, hjsb]; rfl, rfl, rfl, hj, fun hf => nomatch hf⟩
    have hscan := checkJournalState_walk fs .scan (f1+f2) { m with revokes := [] } w1 hgo
      (walk_mono fs .scan f1 f2 _ _ h1)
    have hrec := walk_mono fs .recover f2 f1 _ _ h3
    rw [Nat.add_comm] at hrec
    have hinit : initJournal fs (f1+f2) m = checkJournalState fs .recover (f1+f2) w1.mem := by
      unfold initJournal
      rw [hscan]
      rfl
    cases r2 with
    | error m2 =>
      exact ⟨f1+f2, .error m2, hinit.trans (checkJournalState_error fs .recover _ w1.mem m2 hgo1 hrec)⟩
    | ok w2 => exact ⟨f1+f2, _, hinit.trans (checkJournalState_walk fs .recover _ w1.mem w2 hgo1 hrec)⟩

/-! ## Both together -/

/-- The two walks come to an end; of a journal with a log the blocks of the log and
then the superblocks are written, and a second recovery changes only the superblock
of the journal. -/
def Replays (m : Mem) (log : Log) : Prop :=
  (∃ fuel r, initJournal fs fuel m = some r) ∧ (WellFormed fs m log →
    ∃ fuel m', initJournal fs fuel m = some (.ok m') ∧ m'.puts = m.puts ++ logWrites fs m log ∧
      m'.disk = applyWrites m.disk (logWrites fs m log) ∧
      ∃ fuel m'', initJournal fs fuel m' = some (.ok m'') ∧
        ∀ n, n ≠ fs.journalBlock 0 → m''.disk n = m'.disk n)

def padded (b : Block) : Block := b ++ List.replicate (256-b.length) 0

/-- A volume of 1 KiB blocks with its journal in blocks 10 to 17. -/
def demoFs : Fs := ⟨256, 1000, fun i => 10+i⟩

/-- A transaction with sequence number 5 that wrote block 3. -/
def demoDisk : ℕ → Block
  | 10 => padded [magicNumber, 4, 0, 1024, 8, 1, 5, 1]
  | 11 => padded [magicNumber, 1, 5, 3, 10]
  | 12 => padded [7]
  | 13 => padded [magicNumber, 2, 5]
  | _ => padded []

def demoMem : Mem := ⟨demoDisk, [], true, []⟩

def demoLog : Log := ⟨[[.desc [⟨3, false, true, padded [7]⟩]]], [], 3⟩

theorem padded_length (b : Block) (h : b.length ≤ 256) : (padded b).length = 256 := by
  rw [padded, List.length_append, List.length_replicate]
  omega

theorem demo_length (n : ℕ) : (demoDisk n).length = 256 := by
  unfold demoDisk
  split <;> exact padded_length _ (by decide)

theorem demo_described : Described demoFs (demoMem.ring demoFs) 5 0 [⟨3, false, true, padded [7]⟩] where
  header := ⟨rfl, rfl, rfl⟩
  tags := ⟨by decide, rfl, by decide, by decide, by decide, fun h => absurd rfl h⟩
  stored := by
    intro j e h
    match j with
    | 0 =>
      obtain rfl := Option.some.inj h
      rfl
    | j+1 => exact absurd h (by simp)

theorem demo_entries (t : List Item) (ht : t ∈ demoLog.committed) (e : Entry) (he : e ∈ entries t) :
    e = ⟨3, false, true, padded [7]⟩ ∧ cancels t e.block = false := by
  obtain rfl := List.mem_singleton.mp ht
  exact ⟨List.mem_singleton.mp he, rfl⟩

theorem demo_wellFormed : WellFormed demoFs demoMem demoLog where
  recover := rfl
  words := .inl rfl
  length := demo_length
  first := by decide
  start := by decide
  lies := ⟨2, ⟨demo_described, rfl⟩, ⟨rfl, rfl, rfl⟩, rfl, fun type _ h => absurd h.1 (by decide)⟩
  some := .inl (by simp [demoLog])
  fits := by decide
  distinct := fun i j _ _ h => Nat.add_left_cancel h
  inside := by decide
  super := by decide
  targets := by
    intro t ht e he
    rw [(demo_entries t ht e he).1]
    decide

theorem demo_simple : Simple demoFs demoMem demoLog where
  start := rfl
  straight := by decide
  single := by
    intro t ht
    simp only [demoLog, List.cons_append, List.nil_append, List.mem_cons, List.not_mem_nil,
      or_false] at ht
    obtain rfl | rfl := ht
    · exact le_rfl
    · exact Nat.zero_le 1
  plain := fun t ht e he => by rw [(demo_entries t ht e he).1]
  own := fun t ht e he => (demo_entries t ht e he).2
  near := fun t ht e he => by
    rw [(demo_entries t ht e he).1]
    decide
  nearJournal := by decide
  increasing := by decide
  ends := by decide +kernel

theorem demo_terminating : Terminating demoFs demoMem := by
  intro _ _
  refine .desc 1 5 ⟨rfl, rfl⟩ ?_ (.commit 3 5 true ⟨rfl, rfl⟩ (.other 4 6 false (by decide)))
  intro t ht n
  obtain rfl : t = ⟨3, 10⟩ := List.mem_singleton.mp ht
  change 10+n ≠ 3
  omega

/-- A block of another type with the expected sequence number: the walk stays there. -/
def stuckMem : Mem :=
  ⟨fun n => if n = 10 then padded [magicNumber, 4, 0, 1024, 8, 1, 5, 1] else padded [magicNumber, 3, 5],
    [], true, []⟩

theorem stuck_walk (fuel : ℕ) : walk demoFs .scan fuel ⟨1, 5, false, false, 0, stuckMem⟩ = none := by
  induction fuel with
  | zero => rfl
  | succ fuel ih =>
    have hturn : turn demoFs .scan ⟨1, 5, false, false, 0, stuckMem⟩ =
        .next ⟨1, 5, false, false, 0, stuckMem⟩ := by
      rw [turn, if_neg (by decide), if_neg (by decide), if_neg (by decide), if_neg (by decide)]
    rw [walk_next demoFs .scan fuel _ _ hturn, ih]

end UBoot.Journal
