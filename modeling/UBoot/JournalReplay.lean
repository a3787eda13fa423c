import UBoot.Ext4Journal
import Mathlib

/-!
# What replaying a journal should do

A log is a list of finished transactions and the beginning of one more, in blocks
of the journal that follow each other in a ring. Its blocks are written in order,
apart from those that a revoke record of their own or a later transaction names.
-/

set_option autoImplicit false

namespace UBoot.Journal

/-! ## Logs -/

/-- A block of a transaction as the journal stores it. -/
structure Entry where
  block : UInt32
  escape : Bool
  sameUuid : Bool
  stored : Block

/-- A block that begins with the magic number is stored without it. -/
def Entry.content (e : Entry) : Block := if e.escape then e.stored.set 0 magicNumber else e.stored

inductive Item where
  | revoke (blocks : List UInt32)
  | desc (entries : List Entry)

structure Log where
  committed : List (List Item)
  /-- What there is of a transaction without a commit block. -/
  unfinished : List Item
  /-- Blocks of the log. -/
  size : ℕ

def entries (t : List Item) : List Entry :=
  t.flatMap fun
    | .revoke _ => []
    | .desc es => es

def cancels (t : List Item) (block : UInt32) : Bool :=
  t.any fun
    | .revoke blocks => blocks.contains block
    | .desc _ => false

/-- The writes of transactions, with one more that is not finished. -/
def writes (unfinished : List Item) : List (List Item) → List (ℕ × Block)
  | [] => []
  | t::ts =>
    ((entries t).filter fun e => !(t::ts ++ [unfinished]).any fun t => cancels t e.block).map
      (fun e => (e.block.toNat, e.content)) ++ writes unfinished ts

/-! ## Blocks of a log -/

variable (fs : Fs)

def Header (b : Block) (type sequence : UInt32) : Prop :=
  word b 0 = magicNumber ∧ word b 1 = type ∧ word b 2 = sequence

def TagsAre (b : Block) : ℕ → List Entry → Prop
  | _, [] => False
  | ofs, e::es =>
    ofs+2 ≤ fs.blockWords ∧ word b ofs = e.block ∧
      (word b (ofs+1) &&& flagEscape ≠ 0 ↔ e.escape = true) ∧
      (word b (ofs+1) &&& flagSameUuid ≠ 0 ↔ e.sameUuid = true) ∧
      (word b (ofs+1) &&& flagLastTag ≠ 0 ↔ es = []) ∧
      (es ≠ [] → TagsAre b (ofs+2+(if e.sameUuid then 0 else 4)) es)

/-- A descriptor block and the blocks it describes. -/
structure Described (blocks : ℕ → Block) (sequence : UInt32) (n : ℕ) (es : List Entry) : Prop where
  header : Header (blocks n) descriptorBlock sequence
  tags : TagsAre fs (blocks n) 3 es
  stored : ∀ (j : ℕ) (e : Entry), es[j]? = some e → blocks (n+1+j) = e.stored

structure Revokes (b : Block) (sequence : UInt32) (numbers : List UInt32) : Prop where
  header : Header b revokeBlock sequence
  count : (word b 3).toNat = 16+4*numbers.length
  room : 4+numbers.length ≤ fs.blockWords
  numbers : ∀ (j : ℕ) (x : UInt32), numbers[j]? = some x → word b (4+j) = x

/-- Items of a transaction lie in blocks from `n` up to `n'`. -/
def Lies (blocks : ℕ → Block) (sequence : UInt32) : ℕ → List Item → ℕ → Prop
  | n, [], n' => n = n'
  | n, .revoke numbers::items, n' =>
    Revokes fs (blocks n) sequence numbers ∧ Lies blocks sequence (n+1) items n'
  | n, .desc es::items, n' =>
    Described fs blocks sequence n es ∧ Lies blocks sequence (n+1+es.length) items n'

def LogLies (blocks : ℕ → Block) (log : Log) : ℕ → UInt32 → List (List Item) → Prop
  | n, sequence, [] =>
    Lies fs blocks sequence n log.unfinished log.size ∧
      ∀ type, type = descriptorBlock ∨ type = commitBlock ∨ type = revokeBlock →
        ¬Header (blocks log.size) type sequence
  | n, sequence, t::ts =>
    ∃ n', Lies fs blocks sequence n t n' ∧ Header (blocks n') commitBlock sequence ∧
      LogLies blocks log (n'+1) (sequence+1) ts

/-! ## Well-formed journals -/

section Fields

variable (m : Mem)

def Mem.jsb : Block := m.disk (fs.journalBlock 0)
def Mem.maxlen : ℕ := (word (m.jsb fs) 4).toNat
def Mem.first : ℕ := (word (m.jsb fs) 5).toNat
def Mem.sequence : UInt32 := word (m.jsb fs) 6
def Mem.start : ℕ := (word (m.jsb fs) 7).toNat

/-- The blocks from the start of the log, around the ring. -/
def Mem.ring (n : ℕ) : Block :=
  m.disk (fs.journalBlock (m.first fs+(m.start fs-m.first fs+n)%(m.maxlen fs-m.first fs)))

end Fields

structure WellFormed (m : Mem) (log : Log) : Prop where
  recover : m.needsRecovery = true
  words : fs.blockWords = 256 ∨ 512 ≤ fs.blockWords ∧ fs.blockWords ≤ 16384
  length : ∀ n, (m.disk n).length = fs.blockWords
  first : 1 ≤ m.first fs
  start : m.first fs ≤ m.start fs ∧ m.start fs < m.maxlen fs
  lies : LogLies fs (m.ring fs) log 0 (m.sequence fs) log.committed
  -- the first block of the log is there
  some : log.committed ≠ [] ∨ log.unfinished ≠ []
  fits : log.size ≤ m.maxlen fs-m.first fs
  distinct : ∀ i j, i < m.maxlen fs → j < m.maxlen fs →
    fs.journalBlock i = fs.journalBlock j → i = j
  inside : ∀ i < m.maxlen fs, (fs.journalBlock i+1)*fs.sectPerBlk ≤ fs.totalSect
  super : (fs.superBlock+1)*fs.sectPerBlk ≤ fs.totalSect ∧
    ∀ i < m.maxlen fs, fs.journalBlock i ≠ fs.superBlock
  -- the log does not hold blocks of the journal
  targets : ∀ t ∈ log.committed, ∀ e ∈ entries t, (e.block.toNat+1)*fs.sectPerBlk ≤ fs.totalSect ∧
    ∀ i < m.maxlen fs, fs.journalBlock i ≠ e.block.toNat

def descs (t : List Item) : List (List Entry) :=
  t.filterMap fun
    | .revoke _ => none
    | .desc es => some es

/-- What the code relies on beyond the format. -/
structure Simple (m : Mem) (log : Log) : Prop where
  start : m.start fs = m.first fs
  -- the log and the block behind it do not go around the ring
  straight : log.size < m.maxlen fs-m.first fs
  single : ∀ t ∈ log.committed ++ [log.unfinished], (descs t).length ≤ 1
  plain : ∀ t ∈ log.committed, ∀ e ∈ entries t, e.escape = false
  own : ∀ t ∈ log.committed, ∀ e ∈ entries t, cancels t e.block = false
  near : ∀ t ∈ log.committed, ∀ e ∈ entries t, e.block.toNat*fs.blksz < 4294967296
  nearJournal : fs.journalBlock 0*fs.blksz < 4294967296
  -- the sequence numbers do not start again at 0
  increasing : (m.sequence fs).toNat+log.committed.length+1 < 4294967296
  -- the end is told by the sequence number, not by the magic number
  ends : word (m.ring fs log.size) 2 ≠ m.sequence fs+UInt32.ofNat log.committed.length

/-! ## Tags and revoke records -/

theorem TagsAre.room (b : Block) (es : List Entry) (ofs : ℕ) (h : TagsAre fs b ofs es) :
    ofs+2*es.length ≤ fs.blockWords := by
  induction es generalizing ofs with
  | nil => exact absurd h not_false
  | cons e es ih =>
    obtain ⟨h1, -, -, -, -, h2⟩ := h
    rw [List.length_cons]
    by_cases hes : es = []
    · rw [hes, List.length_nil]
      omega
    · have h3 := ih _ (h2 hes)
      omega

theorem tagsFrom_blocks (b : Block) (es : List Entry) (ofs fuel : ℕ) (h : TagsAre fs b ofs es)
    (hf : es.length ≤ fuel) : (tagsFrom fs b fuel ofs).map Tag.block = es.map Entry.block := by
  induction es generalizing ofs fuel with
  | nil => exact absurd h not_false
  | cons e es ih =>
    obtain ⟨h1, h2, -, h4, h5, h6⟩ := h
    cases fuel with
    | zero => exact absurd hf (by simp)
    | succ fuel =>
      rw [List.length_cons] at hf
      rw [tagsFrom, if_neg (by omega)]
      simp only [List.map_cons, h2]
      congr 1
      by_cases hes : es = []
      · rw [if_pos (h5.mpr hes), hes]
        rfl
      · rw [if_neg (fun h => hes (h5.mp h))]
        simp only [h4]
        exact ih _ fuel (h6 hes) (by omega)

theorem tags_blocks (b : Block) (es : List Entry) (h : TagsAre fs b 3 es) :
    (tags fs b).map Tag.block = es.map Entry.block :=
  tagsFrom_blocks fs b es 3 _ h (by have := h.room; omega)

theorem tags_length (b : Block) (es : List Entry) (h : TagsAre fs b 3 es) :
    (tags fs b).length = es.length := by
  rw [← List.length_map (f := Tag.block), tags_blocks fs b es h, List.length_map]

/-- The record that a revoke block holds. -/
def record (b : Block) : UInt32 × List UInt32 := (word b 2, revokeEntries b)

theorem Revokes.record (b : Block) (sequence : UInt32) (numbers : List UInt32)
    (hb : fs.blockWords ≤ 16384) (h : Revokes fs b sequence numbers) :
    record b = (sequence, numbers) := by
  have hroom := h.room
  have hcount := h.count
  have hsmall : word b 3 < 0x80000000 := by
    rw [UInt32.lt_iff_toNat_lt, hcount]
    change _ < 2147483648
    omega
  unfold Journal.record revokeEntries
  rw [h.header.2.2, if_pos hsmall, hcount]
  congr 1
  apply List.ext_getElem?
  intro j
  rw [List.getElem?_map, show (16+4*numbers.length-16+3)/4 = numbers.length by omega]
  by_cases hj : j < numbers.length
  · rw [List.getElem?_range hj, List.getElem?_eq_getElem hj]
    exact congrArg some (h.numbers j _ (List.getElem?_eq_getElem hj))
  · rw [List.getElem?_eq_none (by simpa using hj), List.getElem?_eq_none (by simpa using hj)]
    rfl

theorem check_records (revokes : List Block) (blknr sequence : UInt32) :
    checkBlknrForRevoke revokes blknr sequence =
      (revokes.map record).any fun r => decide (sequence < r.1) && r.2.contains blknr := by
  rw [List.any_map]
  rfl

/-! ## One block after the other -/

variable (blocks : ℕ → Block) (log : Log) (first : ℕ)

/-- The journal holds the blocks of the log, from a first one on. -/
def Agrees (m : Mem) : Prop := ∀ n ≤ log.size, m.disk (fs.journalBlock (first+n)) = blocks n

/-- Before block `n` of the log, with the descriptor block of the transaction if there
was one. -/
structure At (sequence : UInt32) (n : ℕ) (o : Option (List Entry)) (w : Walk) : Prop where
  i : w.i = first+n
  expects : w.sequence = sequence
  running : w.running = o.isSome
  dbFound : w.dbFound = o.isSome
  curr : ∀ es, o = some es → ∃ d, w.currDesc = first+d ∧ Described fs blocks sequence d es ∧
    d+1+es.length ≤ n

/-- The revoke records of a transaction. -/
def records (sequence : UInt32) (t : List Item) : List (UInt32 × List UInt32) :=
  t.filterMap fun
    | .revoke numbers => some (sequence, numbers)
    | .desc _ => none

/-- Memory after revoke blocks: only the list has changed, and that in a scan. -/
structure Scanned (mode : Mode) (rs : List (UInt32 × List UInt32)) (m m' : Mem) : Prop where
  same : m' = { m with revokes := m'.revokes }
  scan : mode = .scan → m'.revokes.map record = m.revokes.map record ++ rs
  recover : mode = .recover → m'.revokes = m.revokes

theorem Scanned.refl (mode : Mode) (m : Mem) : Scanned mode [] m m :=
  ⟨rfl, fun _ => (List.append_nil _).symm, fun _ => rfl⟩

theorem Scanned.trans (mode : Mode) (rs rs' : List (UInt32 × List UInt32)) (m m' m'' : Mem)
    (h : Scanned mode rs m m') (h' : Scanned mode rs' m' m'') : Scanned mode (rs ++ rs') m m'' where
  same := by
    have h2 := h'.same
    rw [h.same] at h2
    exact h2
  scan := fun hm => by rw [h'.scan hm, h.scan hm, List.append_assoc]
  recover := fun hm => (h'.recover hm).trans (h.recover hm)

theorem Scanned.disk (mode : Mode) (rs : List (UInt32 × List UInt32)) (m m' : Mem)
    (h : Scanned mode rs m m') : m'.disk = m.disk := by
  rw [h.same]

theorem Lies.le (sequence : UInt32) (items : List Item) (n n' : ℕ)
    (h : Lies fs blocks sequence n items n') : n ≤ n' := by
  induction items generalizing n with
  | nil => exact le_of_eq h
  | cons item items ih =>
    cases item with
    | revoke numbers =>
      have := ih _ h.2
      omega
    | desc es =>
      have := ih _ h.2
      omega

theorem walk_next (mode : Mode) (fuel : ℕ) (w w' : Walk) (h : turn fs mode w = .next w') :
    walk fs mode (fuel+1) w = walk fs mode fuel w' := by
  rw [walk, h]

theorem turn_desc (mode : Mode) (w : Walk) (b : Block)
    (hb : w.mem.disk (fs.journalBlock w.i) = b) (ht : word b 1 = descriptorBlock)
    (hs : word b 2 = w.sequence) (hr : w.running = false) :
    turn fs mode w = .next (descTurn fs w b) := by
  subst hb
  rw [turn, if_neg (not_not.mpr hs), if_pos ht, if_neg (by rw [hr]; decide)]

theorem turn_commit (mode : Mode) (w : Walk) (b : Block)
    (hb : w.mem.disk (fs.journalBlock w.i) = b) (ht : word b 1 = commitBlock)
    (hs : word b 2 = w.sequence) : turn fs mode w = .next (commitTurn fs mode w) := by
  subst hb
  rw [turn, if_neg (not_not.mpr hs), if_neg (by rw [ht]; decide), if_pos ht]

theorem turn_revoke (mode : Mode) (w : Walk) (b : Block)
    (hb : w.mem.disk (fs.journalBlock w.i) = b) (ht : word b 1 = revokeBlock)
    (hs : word b 2 = w.sequence) : turn fs mode w = .next (revokeTurn mode w b) := by
  subst hb
  rw [turn, if_neg (not_not.mpr hs), if_neg (by rw [ht]; decide), if_neg (by rw [ht]; decide),
    if_pos ht]

theorem turn_stop (mode : Mode) (w : Walk) (hs : word (w.mem.disk (fs.journalBlock w.i)) 2 ≠ w.sequence) :
    turn fs mode w = .stop w := by
  rw [turn, if_pos hs]

theorem scanned_push (mode : Mode) (w : Walk) (b : Block) (r : UInt32 × List UInt32)
    (h : record b = r) : Scanned mode [r] w.mem (revokeTurn mode w b).mem := by
  cases mode with
  | scan => exact ⟨rfl, fun _ => by simp [revokeTurn, h], fun hm => nomatch hm⟩
  | recover => exact ⟨rfl, fun hm => (nomatch hm), fun _ => rfl⟩

/-- The items of a transaction with at most one descriptor block. -/
theorem walk_items (mode : Mode) (hb : fs.blockWords ≤ 16384) (sequence : UInt32) (items : List Item)
    (n n' : ℕ) (o : Option (List Entry)) (w : Walk) (h : Lies fs blocks sequence n items n')
    (hn : n' ≤ log.size) (ha : Agrees fs blocks log first w.mem) (hw : At fs blocks first sequence n o w)
    (ho : (o.toList ++ descs items).length ≤ 1) :
    ∃ w', (∀ fuel, walk fs mode (fuel+items.length) w = walk fs mode fuel w') ∧
      At fs blocks first sequence n' (o.or (descs items).head?) w' ∧
      Scanned mode (records sequence items) w.mem w'.mem := by
  induction items generalizing n o w with
  | nil =>
    subst h
    refine ⟨w, fun _ => rfl, ?_, .refl mode w.mem⟩
    rw [show (descs []).head? = none from rfl, Option.or_none]
    exact hw
  | cons item items ih =>
    have hblock : n ≤ log.size → w.mem.disk (fs.journalBlock w.i) = blocks n := by
      intro h
      rw [hw.i]
      exact ha n h
    cases item with
    | revoke numbers =>
      obtain ⟨hr, hrest⟩ := h
      have hle := hrest.le
      have hturn := turn_revoke fs mode w _ (hblock (by omega)) hr.header.2.1
        (hr.header.2.2.trans hw.expects.symm)
      have hpush := scanned_push mode w _ _ (hr.record fs _ _ _ hb)
      obtain ⟨w', h1, h2, h3⟩ := ih (n+1) o (revokeTurn mode w (blocks n)) hrest
        (by rw [Agrees, hpush.disk]; exact ha)
        ⟨congrArg (· + 1) hw.i, hw.expects, hw.running, hw.dbFound, fun es he => by
          obtain ⟨d, hd1, hd2, hd3⟩ := hw.curr es he
          exact ⟨d, hd1, hd2, by omega⟩⟩ ho
      exact ⟨w', fun fuel => (walk_next fs mode _ w _ hturn).trans (h1 fuel), h2, hpush.trans _ _ _ _ _ _ h3⟩
    | desc es =>
      obtain ⟨hd, hrest⟩ := h
      have hle := hrest.le
      have hnone : o = none ∧ descs items = [] := by
        cases o with
        | none => exact ⟨rfl, by simpa [descs] using ho⟩
        | some x => simp [descs] at ho
      obtain ⟨rfl, hempty⟩ := hnone
      have hturn := turn_desc fs mode w _ (hblock (by omega)) hd.header.2.1
        (hd.header.2.2.trans hw.expects.symm) hw.running
      have hi : (descTurn fs w (blocks n)).i = first+(n+1+es.length) := by
        change w.i+(tags fs (blocks n)).length+1 = _
        rw [tags_length fs _ _ hd.tags, hw.i]
        omega
      obtain ⟨w', h1, h2, h3⟩ := ih (n+1+es.length) (some es) (descTurn fs w (blocks n)) hrest ha
        ⟨hi, hw.expects, rfl, rfl, fun es' he => by
          obtain rfl := Option.some.inj he
          exact ⟨n, hw.i, hd, le_rfl⟩⟩ (by rw [hempty]; exact le_rfl)
      refine ⟨w', fun fuel => (walk_next fs mode _ w _ hturn).trans (h1 fuel), ?_, h3⟩
      rw [hempty] at h2
      exact h2

/-! ## A transaction is replayed -/

/-- What a replay may do to a volume: blocks that are not the journal's. -/
structure Spares (m m' : Mem) : Prop where
  agrees : Agrees fs blocks log first m → Agrees fs blocks log first m'
  revokes : m'.revokes = m.revokes
  needsRecovery : m'.needsRecovery = m.needsRecovery

theorem target_near (n : ℕ) (hb : 0 < fs.blockWords) (h : n*fs.blksz < 4294967296) :
    fs.target n = n := by
  rw [Fs.target, Nat.mod_eq_of_lt h, Nat.mul_div_cancel _ (by unfold Fs.blksz; omega)]

/-- Entries that can be written where they belong. -/
structure Placed (e : Entry) : Prop where
  near : e.block.toNat*fs.blksz < 4294967296
  inside : (e.block.toNat+1)*fs.sectPerBlk ≤ fs.totalSect
  apart : ∀ n ≤ log.size, fs.journalBlock (first+n) ≠ e.block.toNat

def Mem.wrote (m : Mem) (e : Entry) : Mem :=
  { m with disk := Function.update m.disk e.block.toNat e.stored
           puts := m.puts ++ [(e.block.toNat, e.stored)] }

theorem spares_wrote (m : Mem) (e : Entry) (he : Placed fs log first e) :
    Spares fs blocks log first m (m.wrote e) where
  agrees := fun ha n hn => (Function.update_of_ne (he.apart n hn) _ _).trans (ha n hn)
  revokes := rfl
  needsRecovery := rfl

theorem Spares.trans (m m' m'' : Mem) (h : Spares fs blocks log first m m')
    (h' : Spares fs blocks log first m' m'') : Spares fs blocks log first m m'' :=
  ⟨h'.agrees ∘ h.agrees, h'.revokes.trans h.revokes, h'.needsRecovery.trans h.needsRecovery⟩

theorem replay_entries (hb : 0 < fs.blockWords) (sequence : UInt32) (es : List Entry) (ts : List Tag)
    (n : ℕ) (m : Mem) (ht : ts.map Tag.block = es.map Entry.block)
    (hs : ∀ (j : ℕ) (e : Entry), es[j]? = some e → blocks (n+j) = e.stored)
    (hn : n+es.length ≤ log.size) (ha : Agrees fs blocks log first m)
    (hp : ∀ e ∈ es, Placed fs log first e) :
    (replay fs sequence ts (first+n) m).puts = m.puts ++
      (es.filter fun e => !checkBlknrForRevoke m.revokes e.block sequence).map
        (fun e => (e.block.toNat, e.stored)) ∧
      Spares fs blocks log first m (replay fs sequence ts (first+n) m) := by
  induction es generalizing ts n m with
  | nil =>
    rw [List.map_nil, List.map_eq_nil_iff] at ht
    subst ht
    exact ⟨(List.append_nil _).symm, id, rfl, rfl⟩
  | cons e es ih =>
    cases ts with
    | nil => simp at ht
    | cons t ts =>
      rw [List.map_cons, List.map_cons, List.cons.injEq] at ht
      rw [List.length_cons] at hn
      have he := hp e List.mem_cons_self
      have hstored : m.disk (fs.journalBlock (first+n)) = e.stored :=
        (ha n (by omega)).trans (hs 0 e rfl)
      have hput : putExt4 fs m (fs.target t.block.toNat) (m.disk (fs.journalBlock (first+n))) =
          m.wrote e := by
        rw [ht.1, target_near fs _ hb he.near, putExt4, if_pos he.inside, hstored]
        rfl
      have hnext := fun m' h => ih ts (n+1) m' ht.2
        (fun j e' h' => by rw [← hs (j+1) e' h', show n+(j+1) = n+1+j by omega]) (by omega) h
        fun e' h' => hp e' (List.mem_cons_of_mem _ h')
      rw [replay, ht.1, List.filter_cons]
      cases hc : checkBlknrForRevoke m.revokes e.block sequence with
      | true => exact hnext m ha
      | false =>
        have hw := spares_wrote fs blocks log first m e he
        obtain ⟨h1, h2⟩ := hnext (m.wrote e) (hw.agrees ha)
        rw [← ht.1, hput]
        refine ⟨h1.trans ?_, hw.trans _ _ _ _ _ _ _ h2⟩
        simp [Mem.wrote]

theorem entries_descs (t : List Item) : entries t = (descs t).flatten := by
  induction t with
  | nil => rfl
  | cons item t ih =>
    cases item with
    | revoke numbers => exact ih
    | desc es => exact congrArg (es ++ ·) ih

/-- What a finished transaction leaves, in a scan and in a recovery. -/
structure Committed (mode : Mode) (sequence : UInt32) (t : List Item) (m m' : Mem) : Prop where
  scan : mode = .scan → Scanned .scan (records sequence t) m m'
  recover : mode = .recover → m'.puts = m.puts ++
    ((entries t).filter fun e => !checkBlknrForRevoke m.revokes e.block sequence).map
      (fun e => (e.block.toNat, e.stored))
  spares : mode = .recover → Spares fs blocks log first m m'

theorem commitTurn_at (mode : Mode) (sequence : UInt32) (n : ℕ) (o : Option (List Entry)) (w : Walk)
    (h : At fs blocks first sequence n o w) :
    At fs blocks first (sequence+1) (n+1) none (commitTurn fs mode w) := by
  have hgo : (w.running || !w.dbFound) = true := by
    rw [h.running, h.dbFound, Bool.or_not_self]
  unfold commitTurn
  rw [if_pos hgo]
  exact ⟨congrArg (· + 1) h.i, congrArg (· + 1) h.expects, rfl, rfl, fun es he => nomatch he⟩

theorem commitTurn_mem (mode : Mode) (w : Walk) : (commitTurn fs mode w).mem =
    if mode = .recover ∧ w.dbFound = true then recoverTransaction fs w.mem w.currDesc
    else w.mem := rfl

theorem recoverTransaction_spec (hb : 0 < fs.blockWords) (sequence : UInt32) (n : ℕ)
    (es : List Entry) (w : Walk) (h : At fs blocks first sequence n (some es) w) (hn : n ≤ log.size)
    (ha : Agrees fs blocks log first w.mem) (hp : ∀ e ∈ es, Placed fs log first e) :
    (recoverTransaction fs w.mem w.currDesc).puts = w.mem.puts ++
      (es.filter fun e => !checkBlknrForRevoke w.mem.revokes e.block sequence).map
        (fun e => (e.block.toNat, e.stored)) ∧
      Spares fs blocks log first w.mem (recoverTransaction fs w.mem w.currDesc) := by
  obtain ⟨d, hd1, hd2, hd3⟩ := h.curr es rfl
  have heq : recoverTransaction fs w.mem w.currDesc =
      replay fs sequence (tags fs (blocks d)) (first+(d+1)) w.mem := by
    unfold recoverTransaction
    simp only
    rw [hd1, ha d (by omega), hd2.header.2.2, Nat.add_assoc]
  rw [heq]
  exact replay_entries fs blocks log first hb sequence es _ (d+1) w.mem (tags_blocks fs _ _ hd2.tags)
    hd2.stored (by omega) ha hp

theorem walk_txn (mode : Mode) (hb : 0 < fs.blockWords ∧ fs.blockWords ≤ 16384) (sequence : UInt32)
    (t : List Item) (n n' : ℕ) (w : Walk) (h : Lies fs blocks sequence n t n')
    (hc : Header (blocks n') commitBlock sequence) (hn : n' ≤ log.size)
    (ha : Agrees fs blocks log first w.mem) (hw : At fs blocks first sequence n none w)
    (hone : (descs t).length ≤ 1) (hp : ∀ e ∈ entries t, Placed fs log first e) :
    ∃ w', (∀ fuel, walk fs mode (fuel+1+t.length) w = walk fs mode fuel w') ∧
      At fs blocks first (sequence+1) (n'+1) none w' ∧
      Committed fs blocks log first mode sequence t w.mem w'.mem := by
  obtain ⟨w1, h1, h2, h3⟩ := walk_items fs blocks log first mode hb.2 sequence t n n' none w h hn ha hw
    hone
  have ha1 : Agrees fs blocks log first w1.mem := by
    rw [Agrees, h3.disk]
    exact ha
  have hturn := turn_commit fs mode w1 (blocks n') (by rw [h2.i]; exact ha1 n' hn) hc.2.1
    (hc.2.2.trans h2.expects.symm)
  refine ⟨commitTurn fs mode w1, fun fuel => (h1 _).trans (walk_next fs mode fuel w1 _ hturn),
    commitTurn_at fs blocks first mode sequence n' _ w1 h2, ?_⟩
  rw [commitTurn_mem, h2.dbFound]
  cases mode with
  | scan => exact ⟨fun _ => h3, fun hm => (nomatch hm), fun hm => (nomatch hm)⟩
  | recover =>
    have hmem : w1.mem = w.mem := by
      rw [h3.same, h3.recover rfl]
    rw [hmem]
    rw [entries_descs] at hp
    cases hd : descs t with
    | nil =>
      rw [if_neg (by simp)]
      refine ⟨fun hm => (nomatch hm), fun _ => ?_, fun _ => ⟨id, rfl, rfl⟩⟩
      rw [entries_descs, hd]
      exact (List.append_nil _).symm
    | cons es rest =>
      rw [hd] at h2 hone hp
      have hrest : rest = [] := by
        cases rest with
        | nil => rfl
        | cons x xs => simp at hone
      subst hrest
      rw [List.flatten_cons, List.flatten_nil, List.append_nil] at hp
      obtain ⟨h4, h5⟩ := recoverTransaction_spec fs blocks log first hb.1 sequence n' es w1 h2 hn ha1 hp
      rw [hmem] at h4 h5
      rw [if_pos (by exact ⟨rfl, rfl⟩)]
      refine ⟨fun hm => (nomatch hm), fun _ => ?_, fun _ => h5⟩
      rw [entries_descs, hd, List.flatten_cons, List.flatten_nil, List.append_nil]
      exact h4

/-! ## The whole log -/

def allRecords (unfinished : List Item) : UInt32 → List (List Item) → List (UInt32 × List UInt32)
  | sequence, [] => records sequence unfinished
  | sequence, t::ts => records sequence t ++ allRecords unfinished (sequence+1) ts

theorem LogLies.size_le (ts : List (List Item)) (n : ℕ) (sequence : UInt32)
    (h : LogLies fs blocks log n sequence ts) : n ≤ log.size := by
  induction ts generalizing n sequence with
  | nil => exact h.1.le
  | cons t ts ih =>
    obtain ⟨n', h1, -, h3⟩ := h
    have := h1.le
    have := ih _ _ h3
    omega

/-- The last turn: the sequence number of the block behind the log is not the expected
one. -/
theorem walk_stop (mode : Mode) (sequence : UInt32) (o : Option (List Entry)) (w : Walk)
    (ha : Agrees fs blocks log first w.mem) (hw : At fs blocks first sequence log.size o w)
    (he : word (blocks log.size) 2 ≠ sequence) (fuel : ℕ) : walk fs mode (fuel+1) w = some (.ok w) := by
  have hturn : turn fs mode w = .stop w := by
    apply turn_stop
    rw [hw.i, ha _ le_rfl, hw.expects]
    exact he
  rw [walk, hturn]

/-- The turns of a log. -/
def turns (ts : List (List Item)) : ℕ :=
  (ts.map fun t => t.length+1).sum+log.unfinished.length+1

/-- What the transactions of a log leave, one after the other. -/
def Chain (mode : Mode) : UInt32 → List (List Item) → Mem → Mem → Prop
  | sequence, [], m, m' => Scanned mode (records sequence log.unfinished) m m'
  | sequence, t::ts, m, m' =>
    ∃ m1, Committed fs blocks log first mode sequence t m m1 ∧ Chain mode (sequence+1) ts m1 m'

theorem Committed.agrees (mode : Mode) (sequence : UInt32) (t : List Item) (m m' : Mem)
    (h : Committed fs blocks log first mode sequence t m m') (ha : Agrees fs blocks log first m) :
    Agrees fs blocks log first m' := by
  cases mode with
  | scan =>
    rw [Agrees, (h.scan rfl).disk]
    exact ha
  | recover => exact (h.spares rfl).agrees ha

theorem succ_add (sequence : UInt32) (k : ℕ) :
    sequence+1+UInt32.ofNat k = sequence+UInt32.ofNat (k+1) := by
  apply UInt32.toNat_inj.mp
  simp only [UInt32.toNat_add, UInt32.toNat_ofNat', UInt32.reduceToNat]
  omega

theorem walk_log (mode : Mode) (hb : 0 < fs.blockWords ∧ fs.blockWords ≤ 16384)
    (ts : List (List Item)) (n : ℕ) (sequence : UInt32) (w : Walk)
    (h : LogLies fs blocks log n sequence ts) (ha : Agrees fs blocks log first w.mem)
    (hw : At fs blocks first sequence n none w)
    (hone : ∀ t ∈ ts ++ [log.unfinished], (descs t).length ≤ 1)
    (hp : ∀ t ∈ ts, ∀ e ∈ entries t, Placed fs log first e)
    (he : word (blocks log.size) 2 ≠ sequence+UInt32.ofNat ts.length) :
    ∃ w', walk fs mode (turns log ts) w = some (.ok w') ∧
      w'.sequence = sequence+UInt32.ofNat ts.length ∧
      Chain fs blocks log first mode sequence ts w.mem w'.mem := by
  induction ts generalizing n sequence w with
  | nil =>
    obtain ⟨w', h1, h2, h3⟩ := walk_items fs blocks log first mode hb.2 sequence _ n _ none w h.1 le_rfl
      ha hw (hone _ (by simp))
    have ha' : Agrees fs blocks log first w'.mem := by
      rw [Agrees, h3.disk]
      exact ha
    have hzero : sequence+UInt32.ofNat ([] : List (List Item)).length = sequence := by simp
    rw [hzero] at he ⊢
    refine ⟨w', ?_, h2.expects, h3⟩
    rw [turns, List.map_nil, List.sum_nil, Nat.zero_add, Nat.add_comm, h1]
    exact walk_stop fs blocks log first mode sequence _ w' ha' h2 he 0
  | cons t ts ih =>
    obtain ⟨n', h1, h2, h3⟩ := h
    have hle := h3.size_le
    obtain ⟨w1, g1, g2, g3⟩ := walk_txn fs blocks log first mode hb sequence t n n' w h1 h2 (by omega) ha
      hw (hone t (by simp)) (hp t List.mem_cons_self)
    rw [List.length_cons, ← succ_add] at he ⊢
    obtain ⟨w', k1, k2, k3⟩ := ih (n'+1) (sequence+1) w1 h3 (g3.agrees _ _ _ _ _ _ _ _ _ ha) g2
      (fun t' ht => hone t' (List.mem_cons_of_mem _ ht))
      (fun t' ht => hp t' (List.mem_cons_of_mem _ ht)) he
    refine ⟨w', ?_, k2, w1.mem, g3, k3⟩
    have hfuel : turns log (t::ts) = turns log ts+1+t.length := by
      simp only [turns, List.map_cons, List.sum_cons]
      omega
    rw [hfuel, g1]
    exact k1

theorem chain_scan (ts : List (List Item)) (sequence : UInt32) (m m' : Mem)
    (h : Chain fs blocks log first .scan sequence ts m m') :
    Scanned .scan (allRecords log.unfinished sequence ts) m m' := by
  induction ts generalizing sequence m with
  | nil => exact h
  | cons t ts ih =>
    obtain ⟨m1, h1, h2⟩ := h
    exact (h1.scan rfl).trans _ _ _ _ _ _ (ih _ _ h2)

theorem any_records (t : List Item) (sequence s blknr : UInt32) (h : s < sequence) :
    (records sequence t).any (fun r => decide (s < r.1) && r.2.contains blknr) = cancels t blknr := by
  induction t with
  | nil => rfl
  | cons item t ih =>
    cases item with
    | revoke numbers =>
      change ((decide (s < sequence) && numbers.contains blknr) || _) = (numbers.contains blknr || _)
      rw [decide_eq_true h, Bool.true_and]
      exact congrArg (numbers.contains blknr || ·) ih
    | desc es => exact ih

theorem any_records_self (t : List Item) (sequence blknr : UInt32) :
    (records sequence t).any (fun r => decide (sequence < r.1) && r.2.contains blknr) = false := by
  induction t with
  | nil => rfl
  | cons item t ih =>
    cases item with
    | revoke numbers =>
      change ((decide (sequence < sequence) && numbers.contains blknr) || _) = false
      rw [decide_eq_false (UInt32.lt_irrefl _), Bool.false_and, Bool.false_or]
      exact ih
    | desc es => exact ih

theorem toNat_succ (sequence : UInt32) (h : sequence.toNat+1 < 4294967296) :
    (sequence+1).toNat = sequence.toNat+1 := by
  rw [UInt32.toNat_add]
  exact Nat.mod_eq_of_lt h

theorem any_allRecords (ts : List (List Item)) (sequence s blknr : UInt32)
    (hs : s < sequence) (hm : sequence.toNat+ts.length < 4294967296) :
    (allRecords log.unfinished sequence ts).any (fun r => decide (s < r.1) && r.2.contains blknr) =
      (ts ++ [log.unfinished]).any fun t => cancels t blknr := by
  induction ts generalizing sequence with
  | nil =>
    rw [allRecords, any_records _ _ _ _ hs]
    simp
  | cons t ts ih =>
    rw [List.length_cons] at hm
    have hsucc := toNat_succ sequence (by omega)
    have hlt : s < sequence+1 := by
      rw [UInt32.lt_iff_toNat_lt] at hs ⊢
      omega
    rw [allRecords, List.any_append, any_records _ _ _ _ hs, ih _ hlt (by omega)]
    rfl

/-- Of the records that a scan collected those of later transactions count. -/
theorem check_later (t : List Item) (ts : List (List Item)) (sequence blknr : UInt32)
    (revokes : List Block) (past : List (UInt32 × List UInt32)) (hpast : ∀ r ∈ past, r.1 ≤ sequence)
    (hm : sequence.toNat+ts.length+1 < 4294967296)
    (hr : revokes.map record = past ++ allRecords log.unfinished sequence (t::ts)) :
    checkBlknrForRevoke revokes blknr sequence =
      (ts ++ [log.unfinished]).any fun t => cancels t blknr := by
  have hsucc := toNat_succ sequence (by omega)
  have hlt : sequence < sequence+1 := by
    rw [UInt32.lt_iff_toNat_lt]
    omega
  have hnone : past.any (fun r => decide (sequence < r.1) && r.2.contains blknr) = false := by
    rw [List.any_eq_false]
    intro r hr
    rw [decide_eq_false (UInt32.not_lt.mpr (hpast r hr)), Bool.false_and]
    exact Bool.false_ne_true
  rw [check_records, hr, List.any_append, hnone, Bool.false_or, allRecords, List.any_append,
    any_records_self, Bool.false_or, any_allRecords log ts _ _ _ hlt (by omega)]

theorem records_sequence (t : List Item) (sequence : UInt32) :
    ∀ r ∈ records sequence t, r.1 = sequence := by
  intro r hr
  obtain ⟨item, -, hi⟩ := List.mem_filterMap.mp hr
  cases item with
  | revoke numbers => exact (congrArg Prod.fst (Option.some.inj hi)).symm
  | desc es => exact nomatch hi

theorem chain_recover (ts : List (List Item)) (sequence : UInt32) (m m' : Mem)
    (past : List (UInt32 × List UInt32)) (h : Chain fs blocks log first .recover sequence ts m m')
    (hpast : ∀ r ∈ past, r.1 ≤ sequence) (hm : sequence.toNat+ts.length < 4294967296)
    (hr : m.revokes.map record = past ++ allRecords log.unfinished sequence ts)
    (hown : ∀ t ∈ ts, ∀ e ∈ entries t, cancels t e.block = false)
    (hplain : ∀ t ∈ ts, ∀ e ∈ entries t, e.escape = false) :
    m'.puts = m.puts ++ writes log.unfinished ts ∧ Spares fs blocks log first m m' := by
  induction ts generalizing sequence m past with
  | nil =>
    have hsame : m' = m := by
      rw [h.same, h.recover rfl]
    rw [hsame]
    exact ⟨(List.append_nil _).symm, id, rfl, rfl⟩
  | cons t ts ih =>
    obtain ⟨m1, h1, h2⟩ := h
    rw [List.length_cons] at hm
    have hspares := h1.spares rfl
    have hsucc := toNat_succ sequence (by omega)
    have hle : sequence ≤ sequence+1 := by
      rw [UInt32.le_iff_toNat_le]
      omega
    obtain ⟨k1, k2⟩ := ih (sequence+1) m1 (past ++ records sequence t) h2
      (fun r hr => by
        obtain hr | hr := List.mem_append.mp hr
        · exact UInt32.le_trans (hpast r hr) hle
        · exact records_sequence t sequence r hr ▸ hle)
      (by omega) (by rw [hspares.revokes, hr, allRecords, List.append_assoc])
      (fun t' ht => hown t' (List.mem_cons_of_mem _ ht))
      (fun t' ht => hplain t' (List.mem_cons_of_mem _ ht))
    refine ⟨?_, hspares.trans _ _ _ _ _ _ _ k2⟩
    have hwrites : ((entries t).filter fun e => !checkBlknrForRevoke m.revokes e.block sequence).map
        (fun e => (e.block.toNat, e.stored)) =
        ((entries t).filter fun e => !(t::ts ++ [log.unfinished]).any fun t => cancels t e.block).map
          (fun e => (e.block.toNat, e.content)) := by
      rw [List.filter_congr (q := fun e => !(t::ts ++ [log.unfinished]).any fun t => cancels t e.block)]
      · apply List.map_congr_left
        intro e he
        rw [Entry.content, hplain t List.mem_cons_self e (List.mem_of_mem_filter he), if_neg (by decide)]
      · intro e he
        rw [check_later log t ts sequence e.block m.revokes past hpast (by omega) hr, List.cons_append,
          List.any_cons, hown t List.mem_cons_self e he, Bool.false_or]
    rw [k1, h1.recover rfl, hwrites, writes, List.append_assoc]

end UBoot.Journal
