import UBoot.ByteStore
import Mathlib.Tactic.SplitIfs
import Mathlib.Tactic.Push

/-!
# The reply of a name server: `DnsHandler` of `net/dns.c`

The payload is in memory from 0 on, and what lies behind it is arbitrary. Every
read is written down with its place.
-/

set_option autoImplicit false

namespace UBoot.Dns

open ByteStore

def aRecord : ℕ := 1
def cnameRecord : ℕ := 5

/-- `get_unaligned_be16`, and `ntohs` of a field. -/
def be16 (mem : Memory) (p : ℕ) : ℕ := (mem p).toNat*256+(mem (p+1)).toNat

/-- The places of a word of 16 bits. -/
def word (p : ℕ) : List ℕ := [p, p+1]

inductive Outcome where
  | ignored
  | notFound
  | notAddress
  | nothing
  | invalid
  | address (bytes : List UInt8)
  deriving DecidableEq, Repr

section Code

variable (mem : Memory) (e : ℕ)

/-- The loop around `debug`, with a counter of 16 bits; `none` still runs. -/
def dump : ℕ → ℕ → Option Unit
  | 0, _ => none
  | fuel+1, i => if i < e then dump fuel ((i+4) % 2^16) else some ()

/-- Skips the host name of the question. -/
def skipHost : ℕ → ℕ → List ℕ → Option (ℕ × List ℕ)
  | 0, _, _ => none
  | fuel+1, p, reads =>
    if p < e then
      if mem p = 0 then some (p, p::reads) else skipHost fuel (p+1) (p::reads)
    else some (p, reads)

/-- Skips the name of an answer, and steps back. -/
def skipName : ℕ → ℕ → List ℕ → Option (ℕ × List ℕ)
  | 0, _, _ => none
  | fuel+1, p, reads =>
    if mem p ≠ 0 ∧ p+12 < e then skipName fuel (p+1) (p::reads) else some (p-1, p::reads)

def owner (fuel p : ℕ) (reads : List ℕ) : Option (ℕ × List ℕ) :=
  if mem p ≠ 0xc0 then skipName mem e fuel p (p::reads) else some (p, p::reads)

/-- The loop through the answers: `found`, the place and the reads. -/
def answers : ℕ → ℕ → List ℕ → Option (Bool × ℕ × List ℕ)
  | 0, _, _ => none
  | fuel+1, p, reads =>
    if p+12 < e then
      match owner mem e fuel p reads with
      | none => none
      | some (q, reads) =>
        if be16 mem (q+2) = cnameRecord then
          answers fuel (q+12+be16 mem (q+10)) (word (q+10)++word (q+2)++reads)
        else some (decide (be16 mem (q+2) = aRecord), q, word (q+2)++reads)
    else some (false, p, reads)

/-- What is done with the answer at `p`. -/
def addressAt (p : ℕ) : Outcome :=
  if p+12+be16 mem (p+10) ≤ e then .address (load mem (p+12) 4) else .invalid

/-- The answer section. -/
def answered (fuel p : ℕ) (reads : List ℕ) : Option (Outcome × List ℕ) :=
  (answers mem e fuel p reads).map fun
    | (found, p, reads) =>
      if found ∧ p+12 < e then (addressAt mem e p, List.range' (p+12) 4++word (p+10)++reads)
      else (.nothing, reads)

/-- What follows the host name at `p`. -/
def afterHost (fuel p : ℕ) (reads : List ℕ) : Option (Outcome × List ℕ) :=
  if p+5 > e then some (.notAddress, reads)
  else if be16 mem (p+1) ≠ aRecord then some (.notAddress, word (p+1)++reads)
  else answered mem e fuel (p+5) (word (p+1)++reads)

/-- `DnsHandler` for `len` bytes; `none` still runs. -/
def handler (fuel dest ourPort : ℕ) : Option (Outcome × List ℕ) :=
  if dest ≠ ourPort then some (.ignored, [])
  else
    (dump e fuel 0).bind fun _ =>
      if be16 mem 4 ≠ 1 then some (.ignored, word 4)
      else if be16 mem 6 = 0 then some (.notFound, word 6++word 4)
      else (skipHost mem e fuel 12 (word 6++word 4)).bind fun r => afterHost mem e fuel r.1 r.2

end Code

/-! ## The loops -/

/-- The first place from `p` on where `P` holds. -/
structure First (P : ℕ → Prop) (p k : ℕ) : Prop where
  le : p ≤ k
  holds : P k
  before : ∀ j, p ≤ j → j < k → ¬P j

theorem First.unique {P : ℕ → Prop} {p k l : ℕ} (h : First P p k) (h' : First P p l) : k = l := by
  rcases lt_trichotomy k l with hlt | heq | hlt
  · exact absurd h.holds (h'.before k h.le hlt)
  · exact heq
  · exact absurd h'.holds (h.before l h'.le hlt)

theorem First.here {P : ℕ → Prop} {p : ℕ} (h : P p) : First P p p :=
  ⟨le_rfl, h, fun _ h1 h2 => absurd h1 (not_le.2 h2)⟩

theorem First.step {P : ℕ → Prop} {p k : ℕ} (hp : ¬P p) (h : First P (p+1) k) : First P p k := by
  refine ⟨Nat.le_of_succ_le h.le, h.holds, fun j h1 h2 => ?_⟩
  rcases Nat.lt_or_eq_of_le h1 with hlt | rfl
  · exact h.before j hlt h2
  · exact hp

/-- All reads are inside the payload. -/
def Inside (e : ℕ) (reads : List ℕ) : Prop := ∀ r ∈ reads, r < e

theorem inside_cons {e r : ℕ} {reads : List ℕ} (h : r < e) :
    Inside e (r::reads) ↔ Inside e reads :=
  List.forall_mem_cons.trans (and_iff_right h)

section Loops

variable {mem : Memory} {e : ℕ}

/-- A counter of 16 bits passes all lengths but the three highest ones. -/
theorem dump_some (he : e ≤ 65532) (fuel i : ℕ) (hi : i % 4 = 0) (hle : i ≤ 65532)
    (hpos : 0 < fuel) (hfuel : e < i+fuel) : dump e fuel i = some () := by
  induction fuel generalizing i with
  | zero => exact absurd hpos (lt_irrefl 0)
  | succ fuel ih =>
    rw [dump]
    split_ifs with h
    · rw [Nat.mod_eq_of_lt (by omega)]
      exact ih (i+4) (by omega) (by omega) (by omega) (by omega)
    · rfl

theorem dump_none (he : 65532 < e) (fuel i : ℕ) (hi : i % 4 = 0) (hle : i ≤ 65532) :
    dump e fuel i = none := by
  induction fuel generalizing i with
  | zero => rfl
  | succ fuel ih =>
    rw [dump, if_pos (by omega)]
    exact ih _ (by omega) (by omega)

theorem inside_word {p : ℕ} {reads : List ℕ} (h : p+1 < e) :
    Inside e (word p++reads) ↔ Inside e reads :=
  (inside_cons (by omega)).trans (inside_cons h)

/-- The host name ends at the first zero, or with the payload. -/
theorem skipHost_spec (mem : Memory) (fuel p : ℕ) (reads : List ℕ) (hfuel : e < p+fuel) (hpos : 0 < fuel) :
    ∃ k reads', skipHost mem e fuel p reads = some (k, reads') ∧
      First (fun j => e ≤ j ∨ mem j = 0) p k ∧ (Inside e reads' ↔ Inside e reads) := by
  induction fuel generalizing p reads with
  | zero => omega
  | succ fuel ih =>
    rw [skipHost]
    by_cases hp : p < e
    · rw [if_pos hp]
      by_cases hz : mem p = 0
      · rw [if_pos hz]
        exact ⟨p, _, rfl, First.here (.inr hz), inside_cons hp⟩
      · rw [if_neg hz]
        obtain ⟨k, reads', hk, hfirst, hin⟩ := ih (p+1) (p::reads) (by omega) (by omega)
        exact ⟨k, reads', hk, hfirst.step (not_or.2 ⟨not_le.2 hp, hz⟩), hin.trans (inside_cons hp)⟩
    · rw [if_neg hp]
      exact ⟨p, _, rfl, First.here (.inl (not_lt.1 hp)), Iff.rfl⟩

/-- The name of an answer ends at a zero, or 12 bytes in front of the end. -/
def NameEnd (mem : Memory) (e : ℕ) : ℕ → ℕ → Prop := First fun j => mem j = 0 ∨ e ≤ j+12

theorem skipName_spec (mem : Memory) (fuel p : ℕ) (reads : List ℕ) (hp : p+12 ≤ e) (hfuel : e < p+12+fuel) :
    ∃ k reads', skipName mem e fuel p reads = some (k-1, reads') ∧ NameEnd mem e p k ∧
      k+12 ≤ e ∧ (Inside e reads' ↔ Inside e reads) := by
  induction fuel generalizing p reads with
  | zero => omega
  | succ fuel ih =>
    rw [skipName]
    by_cases hgo : mem p ≠ 0 ∧ p+12 < e
    · rw [if_pos hgo]
      obtain ⟨k, reads', hk, hfirst, hle, hin⟩ := ih (p+1) (p::reads) (by omega) (by omega)
      refine ⟨k, reads', hk, hfirst.step ?_, hle, hin.trans (inside_cons (by omega))⟩
      rintro (hz | hend)
      · exact hgo.1 hz
      · omega
    · rw [if_neg hgo]
      refine ⟨p, _, rfl, First.here ?_, hp, inside_cons (by omega)⟩
      rw [not_and_or, not_not] at hgo
      exact hgo.imp_right not_lt.1

/-! ## The answers -/

/-- From `q` on the fields of the answer at `p` are counted. -/
def Owner (mem : Memory) (e p q : ℕ) : Prop :=
  if mem p = 0xc0 then q = p else NameEnd mem e p (q+1)

theorem Owner.unique {p q r : ℕ} (h : Owner mem e p q) (h' : Owner mem e p r) : q = r := by
  unfold Owner at h h'
  split_ifs at h h'
  · rw [h, h']
  · exact Nat.succ.inj (First.unique h h')

theorem owner_spec (mem : Memory) (fuel p : ℕ) (reads : List ℕ) (hpos : 0 < p) (hp : p+12 < e)
    (hfuel : e < p+12+fuel) :
    ∃ q reads', owner mem e fuel p reads = some (q, reads') ∧ Owner mem e p q ∧ p ≤ q+1 ∧
      q+12 < e ∧ (Inside e reads' ↔ Inside e reads) := by
  unfold owner Owner
  by_cases hc : mem p = 0xc0
  · rw [if_neg (not_not.2 hc)]
    refine ⟨p, _, rfl, ?_, by omega, hp, inside_cons (by omega)⟩
    rw [if_pos hc]
  · rw [if_pos hc]
    obtain ⟨k, reads', hk, hend, hle, hin⟩ := skipName_spec mem fuel p (p::reads) hp.le hfuel
    have hpk := hend.le
    refine ⟨k-1, reads', hk, ?_, by omega, by omega, hin.trans (inside_cons (by omega))⟩
    rw [if_neg hc, Nat.sub_add_cancel (by omega)]
    exact hend

/-- The answers at `p` are other names, up to the answer at `r`. -/
inductive Walk (mem : Memory) (e : ℕ) : ℕ → ℕ → Prop
  | here (p : ℕ) : Walk mem e p p
  | next {p q r : ℕ} : p+12 < e → Owner mem e p q → be16 mem (q+2) = cnameRecord →
      Walk mem e (q+12+be16 mem (q+10)) r → Walk mem e p r

/-- The first answer of another type has an address, and its fields are counted from `q`. -/
def AnswerAt (mem : Memory) (e p q : ℕ) : Prop :=
  ∃ r, Walk mem e p r ∧ r+12 < e ∧ Owner mem e r q ∧ be16 mem (q+2) = aRecord

theorem answerAt_end {p q : ℕ} (hp : ¬p+12 < e) : ¬AnswerAt mem e p q := by
  rintro ⟨r, hwalk, hr, -⟩
  cases hwalk with
  | here => exact hp hr
  | next h => exact hp h

/-- Another name is passed. -/
theorem answerAt_next {p q r : ℕ} (hp : p+12 < e) (hq : Owner mem e p q)
    (htype : be16 mem (q+2) = cnameRecord) :
    AnswerAt mem e p r ↔ AnswerAt mem e (q+12+be16 mem (q+10)) r := by
  constructor
  · rintro ⟨s, hwalk, hs, howner, ha⟩
    cases hwalk with
    | here =>
      rw [← hq.unique howner, htype] at ha
      exact absurd ha (by decide)
    | next _ hq' _ hwalk => exact ⟨s, hq.unique hq' ▸ hwalk, hs, howner, ha⟩
  · rintro ⟨s, hwalk, hrest⟩
    exact ⟨s, .next hp hq htype hwalk, hrest⟩

/-- At any other type the walk is over. -/
theorem answerAt_here {p q r : ℕ} (hp : p+12 < e) (hq : Owner mem e p q)
    (htype : be16 mem (q+2) ≠ cnameRecord) :
    AnswerAt mem e p r ↔ be16 mem (q+2) = aRecord ∧ r = q := by
  constructor
  · rintro ⟨s, hwalk, hs, howner, ha⟩
    cases hwalk with
    | here =>
      obtain rfl := hq.unique howner
      exact ⟨ha, rfl⟩
    | next _ hq' htype' => exact absurd (hq.unique hq' ▸ htype') htype
  · rintro ⟨ha, rfl⟩
    exact ⟨p, .here p, hp, hq, ha⟩

/-- The loop ends, all its reads are inside, and it finds the answer with the address. -/
theorem answers_spec (mem : Memory) (fuel p : ℕ) (reads : List ℕ) (hpos : 0 < p) (hfuel : e < p+fuel)
    (hmore : 0 < fuel) :
    ∃ found q reads', answers mem e fuel p reads = some (found, q, reads') ∧
      (Inside e reads' ↔ Inside e reads) ∧
      ∀ r, AnswerAt mem e p r ↔ found = true ∧ q+12 < e ∧ r = q := by
  induction fuel generalizing p reads with
  | zero => omega
  | succ fuel ih =>
    rw [answers]
    by_cases hp : p+12 < e
    · rw [if_pos hp]
      obtain ⟨q, reads', hown, hq, hpq, hqe, hin⟩ :=
        owner_spec mem fuel p reads hpos hp (by omega)
      rw [hown]
      dsimp only
      by_cases htype : be16 mem (q+2) = cnameRecord
      · obtain ⟨found, r, reads'', hans, hin', hat⟩ :=
          ih (q+12+be16 mem (q+10)) (word (q+10)++word (q+2)++reads') (by omega) (by omega) (by omega)
        rw [if_pos htype]
        refine ⟨found, r, reads'', hans, ?_, fun s => (answerAt_next hp hq htype).trans (hat s)⟩
        rw [hin', List.append_assoc, inside_word (by omega), inside_word (by omega), hin]
      · rw [if_neg htype]
        refine ⟨_, q, _, rfl, (inside_word (by omega)).trans hin, fun r => ?_⟩
        rw [answerAt_here hp hq htype, decide_eq_true_iff, and_iff_right hqe]
    · rw [if_neg hp]
      exact ⟨false, p, reads, rfl, Iff.rfl, fun r =>
        iff_of_false (answerAt_end hp) fun h => Bool.false_ne_true h.1⟩

/-! ## The handler -/

theorem inside_address {q : ℕ} {reads : List ℕ} (hq : q+12 < e) :
    Inside e (List.range' (q+12) 4++word (q+10)++reads) ↔ q+16 ≤ e ∧ Inside e reads := by
  rw [List.append_assoc, Inside, List.forall_mem_append]
  refine and_congr ⟨fun h => h (q+15) ?_, fun h r hr => ?_⟩ (inside_word (by omega))
  · rw [List.mem_range'_1]
    omega
  · rw [List.mem_range'_1] at hr
    omega

/-- The address of an answer of the walk has its four bytes in the payload. -/
def Complete (mem : Memory) (e p : ℕ) : Prop := ∀ q, AnswerAt mem e p q → q+16 ≤ e

theorem answered_spec (mem : Memory) (fuel p : ℕ) (reads : List ℕ) (hpos : 0 < p) (hfuel : e < p+fuel)
    (hmore : 0 < fuel) :
    ∃ outcome reads', answered mem e fuel p reads = some (outcome, reads') ∧
      (Inside e reads' ↔ Complete mem e p ∧ Inside e reads) ∧
      (∀ q, AnswerAt mem e p q → outcome = addressAt mem e q) ∧
      ((∀ q, ¬AnswerAt mem e p q) → outcome = .nothing) := by
  obtain ⟨found, q, reads', hans, hin, hat⟩ := answers_spec mem fuel p reads hpos hfuel hmore
  unfold answered
  rw [hans, Option.map_some]
  dsimp only
  by_cases hfound : found = true ∧ q+12 < e
  · have hq : AnswerAt mem e p q := (hat q).2 ⟨hfound.1, hfound.2, rfl⟩
    have hcomplete : Complete mem e p ↔ q+16 ≤ e :=
      ⟨fun h => h q hq, fun h r hr => ((hat r).1 hr).2.2 ▸ h⟩
    rw [if_pos hfound]
    refine ⟨_, _, rfl, ?_, fun r hr => ?_, fun h => absurd hq (h q)⟩
    · rw [inside_address hfound.2, hcomplete, hin]
    · rw [((hat r).1 hr).2.2]
  · have hnone : ∀ r, ¬AnswerAt mem e p r := fun r hr =>
      hfound ⟨((hat r).1 hr).1, ((hat r).1 hr).2.1⟩
    rw [if_neg hfound]
    refine ⟨_, _, rfl, ?_, fun r hr => absurd hr (hnone r), fun _ => rfl⟩
    rw [hin, and_iff_right]
    exact fun r hr => absurd hr (hnone r)

/-- The end of the host name of the question. -/
def HostEnd (mem : Memory) (e k : ℕ) : Prop := First (fun j => e ≤ j ∨ mem j = 0) 12 k

/-- The answers are those of an address. -/
def Asked (mem : Memory) (e k : ℕ) : Prop :=
  HostEnd mem e k ∧ k+5 ≤ e ∧ be16 mem (k+1) = aRecord

theorem afterHost_spec {fuel k : ℕ} (reads : List ℕ) (hk : HostEnd mem e k) (hfuel : e < fuel) :
    ∃ outcome reads', afterHost mem e fuel k reads = some (outcome, reads') ∧
      (Inside e reads' ↔ (Asked mem e k → Complete mem e (k+5)) ∧ Inside e reads) ∧
      (Asked mem e k → answered mem e fuel (k+5) (word (k+1)++reads) = some (outcome, reads')) := by
  unfold afterHost
  by_cases hshort : k+5 > e
  · have hnot : ¬Asked mem e k := fun h => absurd h.2.1 (not_le.2 hshort)
    rw [if_pos hshort]
    exact ⟨_, _, rfl, (and_iff_right fun h => absurd h hnot).symm, fun h => absurd h hnot⟩
  rw [if_neg hshort]
  by_cases htype : be16 mem (k+1) = aRecord
  · have hasked : Asked mem e k := ⟨hk, not_lt.1 hshort, htype⟩
    rw [if_neg (not_not.2 htype)]
    obtain ⟨outcome, reads', hans, hin, -⟩ := answered_spec mem (e := e) fuel (k+5)
      (word (k+1)++reads) (by omega) (by omega) (by omega)
    refine ⟨outcome, reads', hans, ?_, fun _ => hans⟩
    rw [hin, inside_word (by omega), forall_prop_of_true hasked]
  · have hnot : ¬Asked mem e k := fun h => htype h.2.2
    rw [if_pos htype]
    refine ⟨_, _, rfl, ?_, fun h => absurd h hnot⟩
    rw [inside_word (by omega), and_iff_right fun h => absurd h hnot]

end Loops

section Handler

variable {mem : Memory} {len : ℕ}

/-- With enough rounds the handler is through, and has read nothing but the payload. -/
def Safe (mem : Memory) (len dest ourPort : ℕ) : Prop :=
  ∃ rounds, ∀ fuel, rounds ≤ fuel →
    ∃ outcome reads, handler mem len fuel dest ourPort = some (outcome, reads) ∧ Inside len reads

/-- The header fields that are looked at are there, and so is the address. -/
def Enough (mem : Memory) (len dest ourPort : ℕ) : Prop :=
  dest ≠ ourPort ∨ len ≤ 65532 ∧ 6 ≤ len ∧ (be16 mem 4 = 1 → 8 ≤ len ∧
    (be16 mem 6 ≠ 0 → ∀ k, Asked mem len k → Complete mem len (k+5)))

theorem handler_self (hlen : len ≤ 65532) {fuel : ℕ} (hfuel : len < fuel) (port : ℕ) :
    handler mem len fuel port port =
      if be16 mem 4 ≠ 1 then some (.ignored, word 4)
      else if be16 mem 6 = 0 then some (.notFound, word 6++word 4)
      else (skipHost mem len fuel 12 (word 6++word 4)).bind fun r => afterHost mem len fuel r.1 r.2 := by
  rw [handler, if_neg (not_not.2 rfl), dump_some hlen fuel 0 rfl (by decide) (by omega) (by omega)]
  rfl

theorem inside_ends {p : ℕ} : Inside len (word p) ↔ p+1 < len := by
  refine ⟨fun h => h (p+1) (List.mem_pair.2 (.inr rfl)), fun h r hr => ?_⟩
  rcases List.mem_pair.1 hr with rfl | rfl <;> omega

theorem inside_header : Inside len (word 6++word 4) ↔ 8 ≤ len := by
  rw [Inside, List.forall_mem_append]
  refine ⟨fun h => ?_, fun h => ⟨inside_ends.2 (by omega), inside_ends.2 (by omega)⟩⟩
  have h7 := inside_ends.1 h.1
  omega

/-- The host name is skipped, and the rest is done behind it. -/
theorem skipped (mem : Memory) (fuel : ℕ) (hfuel : len < fuel) :
    ∃ k outcome reads, HostEnd mem len k ∧
      ((skipHost mem len fuel 12 (word 6++word 4)).bind fun r => afterHost mem len fuel r.1 r.2) =
        some (outcome, reads) ∧
      (Inside len reads ↔ (Asked mem len k → Complete mem len (k+5)) ∧ 8 ≤ len) ∧
      (Asked mem len k → ∃ reads', answered mem len fuel (k+5) reads' = some (outcome, reads)) := by
  obtain ⟨k, reads, hskip, hk, hin⟩ :=
    skipHost_spec mem (e := len) fuel 12 (word 6++word 4) (by omega) (by omega)
  obtain ⟨outcome, reads', hafter, hin', hasked⟩ :=
    afterHost_spec reads (show HostEnd mem len k from hk) hfuel
  refine ⟨k, outcome, reads', hk, ?_, ?_, fun h => ⟨_, hasked h⟩⟩
  · rw [hskip]
    exact hafter
  · rw [hin', hin, inside_header]

/-- The run of the handler for its own port. -/
theorem handler_spec (mem : Memory) (hlen : len ≤ 65532) {fuel : ℕ} (hfuel : len < fuel) (port : ℕ) :
    ∃ outcome reads, handler mem len fuel port port = some (outcome, reads) ∧
      (Inside len reads ↔ 6 ≤ len ∧ (be16 mem 4 = 1 → 8 ≤ len ∧
        (be16 mem 6 ≠ 0 → ∀ k, Asked mem len k → Complete mem len (k+5)))) := by
  rw [handler_self hlen hfuel]
  by_cases hquery : be16 mem 4 = 1
  swap
  · rw [if_pos hquery]
    refine ⟨_, _, rfl, inside_ends.trans ?_⟩
    rw [and_iff_left fun h => absurd h hquery]
    omega
  rw [if_neg (not_not.2 hquery), forall_prop_of_true hquery]
  have hsix : ∀ {P : Prop}, 6 ≤ len ∧ 8 ≤ len ∧ P ↔ P ∧ 8 ≤ len := fun {P} =>
    ⟨fun h => ⟨h.2.2, h.2.1⟩, fun h => ⟨by omega, h.2, h.1⟩⟩
  rw [hsix]
  by_cases hzero : be16 mem 6 = 0
  · rw [if_pos hzero]
    exact ⟨_, _, rfl, inside_header.trans (and_iff_right fun h => absurd hzero h).symm⟩
  · rw [if_neg hzero, forall_prop_of_true hzero]
    obtain ⟨k, outcome, reads, hk, hrun, hin, -⟩ := skipped mem fuel hfuel
    refine ⟨outcome, reads, hrun, hin.trans (and_congr_left' ⟨fun h l hl => ?_, fun h => h k⟩)⟩
    obtain rfl := hk.unique hl.1
    exact h hl

/-- The handler comes to its end inside the payload just where enough is there. -/
theorem enough_iff (mem : Memory) (len dest ourPort : ℕ) :
    Safe mem len dest ourPort ↔ Enough mem len dest ourPort := by
  by_cases hport : dest = ourPort
  swap
  · exact iff_of_true ⟨0, fun fuel _ => ⟨.ignored, [], if_pos hport, fun _ h => nomatch h⟩⟩
      (.inl hport)
  subst hport
  rw [Enough, or_iff_right (not_not.2 rfl)]
  by_cases hlen : len ≤ 65532
  swap
  · refine iff_of_false ?_ fun h => hlen h.1
    rintro ⟨rounds, h⟩
    obtain ⟨outcome, reads, hrun, -⟩ := h rounds le_rfl
    rw [handler, if_neg (not_not.2 rfl), dump_none (not_le.1 hlen) rounds 0 rfl (by decide)] at hrun
    cases hrun
  rw [and_iff_right hlen]
  constructor
  · rintro ⟨rounds, h⟩
    obtain ⟨outcome, reads, hrun, hin⟩ := h (rounds+len+1) (by omega)
    obtain ⟨_, _, hrun', hiff⟩ := handler_spec mem hlen
      (show len < rounds+len+1 by omega) dest
    rw [hrun] at hrun'
    obtain ⟨-, rfl⟩ := Prod.ext_iff.1 (Option.some.inj hrun')
    exact hiff.1 hin
  · refine fun henough => ⟨len+1, fun fuel hfuel => ?_⟩
    obtain ⟨outcome, reads, hrun, hiff⟩ := handler_spec mem hlen hfuel dest
    exact ⟨outcome, reads, hrun, hiff.2 henough⟩

end Handler

end UBoot.Dns
