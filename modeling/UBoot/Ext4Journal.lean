import Mathlib.Data.List.Basic
import Mathlib.Data.Nat.Basic
import Mathlib.Logic.Function.Basic

/-!
# The journal of ext4: `ext4fs_check_journal_state` of `fs/ext4/ext4_journal.c`

A block is the list of its big-endian words. The journal is a file whose blocks are
found by their place in it. Of a volume the blocks are modelled, of the memory the
revoke blocks that a scan has collected and the flag of the superblock.
-/

set_option autoImplicit false

namespace UBoot.Journal

abbrev Block := List UInt32

def word (b : Block) (i : ℕ) : UInt32 := b.getD i 0

def magicNumber : UInt32 := 0xc03b3998
def descriptorBlock : UInt32 := 1
def commitBlock : UInt32 := 2
def revokeBlock : UInt32 := 5
def flagEscape : UInt32 := 1
def flagSameUuid : UInt32 := 2
def flagLastTag : UInt32 := 8
/-- `JBD2_FEATURE_COMPAT_CHECKSUM`. -/
def compatChecksum : UInt32 := 1
/-- `EXT3_FEATURE_INCOMPAT_RECOVER`, in a field with the low byte first. -/
def incompatRecover : UInt32 := 0x04000000

/-! ## The volume -/

structure Fs where
  /-- Words in a block. -/
  blockWords : ℕ
  totalSect : ℕ
  /-- `read_allocated_block` for the inode of the journal. -/
  journalBlock : ℕ → ℕ

variable (fs : Fs)

def Fs.blksz : ℕ := 4*fs.blockWords
def Fs.sectPerBlk : ℕ := fs.blksz/512

inductive Mode where
  | scan | recover
  deriving DecidableEq

structure Mem where
  disk : ℕ → Block
  /-- `revk_blk_list`. -/
  revokes : List Block
  /-- The flag in `fs->sb`. -/
  needsRecovery : Bool
  /-- What was written, in order. -/
  puts : List (ℕ × Block)

/-- `put_ext4` of a whole block; nothing is written behind the partition. -/
def putExt4 (m : Mem) (n : ℕ) (b : Block) : Mem :=
  if (n+1)*fs.sectPerBlk ≤ fs.totalSect then
    { m with disk := Function.update m.disk n b, puts := m.puts ++ [(n, b)] }
  else m

/-- The block at the byte offset of a block number, a product of 32 bits. -/
def Fs.target (n : ℕ) : ℕ := n*fs.blksz%4294967296/fs.blksz

/-- The block with the superblock, at byte 1024. -/
def Fs.superBlock : ℕ := if fs.blockWords = 256 then 1 else 0

def Fs.incompatWord : ℕ := if fs.blockWords = 256 then 24 else 280

/-- The superblock is read, the flag set in it and it is written. -/
def markRecover (m : Mem) : Mem :=
  let b := m.disk fs.superBlock
  { putExt4 fs m fs.superBlock
      (b.set fs.incompatWord (word b fs.incompatWord ||| incompatRecover)) with needsRecovery := true }

/-! ## Descriptor and revoke blocks -/

structure Tag where
  block : UInt32
  flags : UInt32
  deriving DecidableEq

/-- The tags of a descriptor block from a word on; every turn goes on by two words or
more. -/
def tagsFrom (b : Block) : ℕ → ℕ → List Tag
  | 0, _ => []
  | fuel+1, ofs =>
    if fs.blockWords < ofs+2 then []
    else
      let flags := word b (ofs+1)
      ⟨word b ofs, flags⟩::
        if flags &&& flagLastTag ≠ 0 then []
        else tagsFrom b fuel (ofs+2+(if flags &&& flagSameUuid ≠ 0 then 0 else 4))

def tags (b : Block) : List Tag := tagsFrom fs b fs.blockWords 3

/-- The numbers in a revoke block, as many as `r_count` bytes hold. -/
def revokeEntries (b : Block) : List UInt32 :=
  let max := if word b 3 < 0x80000000 then (word b 3).toNat else 0
  (List.range ((max-16+3)/4)).map fun j => word b (4+j)

def checkBlknrForRevoke (revokes : List Block) (blknr sequenceNo : UInt32) : Bool :=
  revokes.any fun b => decide (sequenceNo < word b 2) && (revokeEntries b).contains blknr

/-- The loop of `recover_transaction`: the data of the tags lies behind the descriptor. -/
def replay (sequenceNo : UInt32) : List Tag → ℕ → Mem → Mem
  | [], _, m => m
  | t::ts, i, m =>
    replay sequenceNo ts (i+1)
      (if checkBlknrForRevoke m.revokes t.block sequenceNo then m
      else putExt4 fs m (fs.target t.block.toNat) (m.disk (fs.journalBlock i)))

def recoverTransaction (m : Mem) (prevDesc : ℕ) : Mem :=
  let b := m.disk (fs.journalBlock prevDesc)
  replay fs (word b 2) (tags fs b) (prevDesc+1) m

/-! ## The loop over the journal -/

structure Walk where
  i : ℕ
  /-- `s_sequence` of the journal superblock in memory. -/
  sequence : UInt32
  dbFound : Bool
  /-- `transaction_state`. -/
  running : Bool
  currDesc : ℕ
  mem : Mem

inductive Turn where
  | next (w : Walk)
  /-- The sequence number is not the expected one. -/
  | stop (w : Walk)
  /-- A second descriptor block: the function returns -1. -/
  | fail (m : Mem)

def commitTurn (mode : Mode) (w : Walk) : Walk :=
  let w' := if w.running || !w.dbFound then
      { w with running := false, i := w.i+1, sequence := w.sequence+1 }
    else w
  let m := if mode = .recover ∧ w.dbFound = true then recoverTransaction fs w.mem w.currDesc else w.mem
  { w' with mem := m, dbFound := false }

def descTurn (w : Walk) (b : Block) : Walk :=
  { w with currDesc := w.i, running := true, i := w.i+(tags fs b).length+1, dbFound := true }

/-- `ext4fs_push_revoke_blk`, in a scan. -/
def revokeTurn (mode : Mode) (w : Walk) (b : Block) : Walk :=
  { w with
    i := w.i+1
    mem := (if mode = .scan then { w.mem with revokes := w.mem.revokes ++ [b] } else w.mem) }

def turn (mode : Mode) (w : Walk) : Turn :=
  let b := w.mem.disk (fs.journalBlock w.i)
  -- for every type of block the sequence number comes first
  if word b 2 ≠ w.sequence then .stop w
  else if word b 1 = descriptorBlock then
    if w.running then .fail w.mem else .next (descTurn fs w b)
  else if word b 1 = commitBlock then .next (commitTurn fs mode w)
  else if word b 1 = revokeBlock then .next (revokeTurn mode w b)
  else .next w

def walk (mode : Mode) : ℕ → Walk → Option (Except Mem Walk)
  | 0, _ => none
  | fuel+1, w =>
    match turn fs mode w with
    | .next w => walk mode fuel w
    | .stop w => some (.ok w)
    | .fail m => some (.error m)

/-- The end of a recovery: the superblocks are written and the revoke blocks freed. -/
def finish (mode : Mode) (jsb : Block) (sequence : UInt32) (m : Mem) : Mem :=
  match mode with
  | .scan => m
  | .recover =>
    { putExt4 fs (markRecover fs m) (fs.target (fs.journalBlock 0))
        ((jsb.set 7 1).set 6 (sequence+1)) with revokes := [] }

/-- `ext4fs_check_journal_state`. Words 5, 6, 7 and 9 of the journal superblock are
`s_first`, `s_sequence`, `s_start` and `s_feature_compat`. -/
def checkJournalState (mode : Mode) (fuel : ℕ) (m : Mem) : Option (Except Mem Mem) :=
  let jsb := m.disk (fs.journalBlock 0)
  if m.needsRecovery = false ∨ word jsb 7 = 0 then some (.ok (finish fs mode jsb (word jsb 6) m))
  else
    match walk fs mode fuel ⟨(word jsb 5).toNat, word jsb 6, false, false, 0, m⟩ with
    | none => none
    | some (.error m) => some (.error m)
    | some (.ok w) =>
      some (.ok (finish fs mode (jsb.set 9 (word jsb 9 ||| compatChecksum)) w.sequence w.mem))

/-- The part of `ext4fs_init_journal` that scans and then recovers. -/
def initJournal (fuel : ℕ) (m : Mem) : Option (Except Mem Mem) :=
  match checkJournalState fs .scan fuel { m with revokes := [] } with
  | some (.ok m) => checkJournalState fs .recover fuel m
  | r => r

end UBoot.Journal
