import UBoot.Dns
import Mathlib.Data.List.TakeWhile

/-!
# The address in a reply

A reply to the query of `DnsSend` has the question of the query, other names as
its first answers and then an address. The name in front of each answer is in one
of the forms of RFC 1035.
-/

set_option autoImplicit false

namespace UBoot.Dns

open ByteStore

/-- `'.'` -/
def dot : UInt8 := 46

theorem dropWhile_lt {p : UInt8 → Bool} {l m : List UInt8} {a : UInt8}
    (h : l.dropWhile p = a::m) : m.length < l.length := by
  have hle := (List.dropWhile_suffix (l := l) p).length_le
  rw [h] at hle
  exact hle

/-- The loop of `DnsSend` over the chunks of the name. -/
def hostName (name : List UInt8) : List UInt8 :=
  let chunk := name.takeWhile (· ≠ dot)
  match _h : name.dropWhile (· ≠ dot) with
  | [] => UInt8.ofNat chunk.length::chunk
  | _::name => UInt8.ofNat chunk.length::chunk++hostName name
termination_by name.length
decreasing_by exact dropWhile_lt _h

/-- The packet of `DnsSend`. -/
def dnsSend (name : List UInt8) : List UInt8 :=
  [1, 0, 1, 0, 0, 1, 0, 0, 0, 0, 0, 0]++(hostName name++[0, 0, UInt8.ofNat aRecord, 0, 1])

/-! ## Replies -/

structure Label where
  octets : List UInt8
  pos : 0 < octets.length
  le : octets.length ≤ 63

def Label.encode (l : Label) : List UInt8 := UInt8.ofNat l.octets.length::l.octets

/-- Labels, and then the root or a pointer. -/
structure Name where
  labels : List Label
  pointer : Option ℕ
  pointer_lt : ∀ n ∈ pointer, n < 2^14

namespace Name

def tail : Option ℕ → List UInt8
  | none => [0]
  | some n => [UInt8.ofNat (0xc0+n/256), UInt8.ofNat n]

def encode (n : Name) : List UInt8 := n.labels.flatMap Label.encode++tail n.pointer

/-- No octet of a label is zero, as in a host name. -/
def Plain (n : Name) : Prop := ∀ l ∈ n.labels, 0 ∉ l.octets

/-- A pointer stands alone and is below 256, or it ends in a zero byte. -/
def Found (n : Name) : Prop := ∀ p ∈ n.pointer, n.labels = [] ∧ p < 256 ∨ p % 256 = 0

end Name

structure Record where
  owner : Name
  ttl : List UInt8
  ttl_length : ttl.length = 4
  rdata : List UInt8
  rdata_lt : rdata.length < 2^16

/-- A record of class 1. -/
def Record.encode (type : ℕ) (r : Record) : List UInt8 :=
  r.owner.encode++([0, UInt8.ofNat type, 0, 1]++(r.ttl++
    ([UInt8.ofNat (r.rdata.length/256), UInt8.ofNat r.rdata.length]++r.rdata)))

structure Sections where
  host : List Label
  host_pos : 0 < host.length
  host_plain : ∀ l ∈ host, 0 ∉ l.octets ∧ dot ∉ l.octets
  /-- The identification and the flags. -/
  start : List UInt8
  start_length : start.length = 4
  cnames : List Record
  address : Record
  address_length : address.rdata.length = 4
  /-- The answers behind the address. -/
  further : ℕ
  further_lt : cnames.length+1+further < 2^16
  /-- The numbers of records in the other sections. -/
  counts : List UInt8
  counts_length : counts.length = 4
  rest : List UInt8

namespace Sections

variable (R : Sections)

/-- The host as the user has written it. -/
def name : List UInt8 := [dot].intercalate (R.host.map Label.octets)

def nanswers : ℕ := R.cnames.length+1+R.further

/-- The answers up to the address. -/
def answerSection : List UInt8 :=
  R.cnames.flatMap (Record.encode cnameRecord)++R.address.encode aRecord

def payload : List UInt8 :=
  R.start++([0, 1]++([UInt8.ofNat (R.nanswers/256), UInt8.ofNat R.nanswers]++(R.counts++
    ((dnsSend R.name).drop 12++(R.answerSection++R.rest)))))

/-- The names of the answers up to the address. -/
def owners : List Name := (R.cnames++[R.address]).map Record.owner

def Plain : Prop := ∀ n ∈ R.owners, n.Plain

def Found : Prop := ∀ n ∈ R.owners, n.Found

end Sections

/-- A reply that is a datagram. -/
structure Response extends Sections where
  payload_le : toSections.payload.length ≤ 65527

/-- The address of the reply is the one that is stored. -/
def Response.Right (R : Response) : Prop :=
  ∀ mem port, Holds mem 0 R.payload → ∃ rounds, ∀ fuel, rounds ≤ fuel →
    ∃ reads, handler mem R.payload.length fuel port port =
      some (.address R.address.rdata, reads)

/-! ## The name of an answer -/

section Owner

variable {mem : Memory} {e : ℕ}

theorem nonzero_of_holds {p : ℕ} {bs : List UInt8} (h : Holds mem p bs) (hbs : 0 ∉ bs) (j : ℕ)
    (hp : p ≤ j) (hj : j < p+bs.length) : mem j ≠ 0 := by
  induction bs generalizing p with
  | nil => exact absurd hj (not_lt.2 hp)
  | cons b bs ih =>
    obtain ⟨hb, hrest⟩ := not_or.1 (List.mem_cons.not.1 hbs)
    rw [List.length_cons] at hj
    rcases Nat.lt_or_eq_of_le hp with hlt | rfl
    · exact ih h.2 hrest hlt (by omega)
    · rw [h.1]
      exact Ne.symm hb

theorem length_ne {n : ℕ} {b : ℕ} (hn : n ≤ 63) (hb : b = 0 ∧ 0 < n ∨ 63 < b ∧ b < 256) :
    UInt8.ofNat n ≠ UInt8.ofNat b := by
  intro h
  have hmod := congrArg UInt8.toNat h
  rw [UInt8.toNat_ofNat', UInt8.toNat_ofNat'] at hmod
  omega

theorem Name.Plain.body {n : Name} (h : n.Plain) : 0 ∉ n.labels.flatMap Label.encode := by
  rw [List.mem_flatMap]
  rintro ⟨l, hl, hmem⟩
  rcases List.mem_cons.1 hmem with heq | hmem
  · exact length_ne l.le (.inl ⟨rfl, l.pos⟩) heq.symm
  · exact h l hl hmem

theorem label_first {p : ℕ} {labels : List Label} (hne : labels ≠ [])
    (h : Holds mem p (labels.flatMap Label.encode)) : mem p ≠ 0xc0 := by
  cases labels with
  | nil => exact absurd rfl hne
  | cons l labels =>
    rw [h.1]
    exact length_ne l.le (.inr (by decide))

theorem owner_scanned {p k : ℕ} (hc : mem p ≠ 0xc0) (hpos : 0 < p) (hpk : p ≤ k)
    (hzero : mem k = 0) (hnon : ∀ j, p ≤ j → j < k → mem j ≠ 0) (he : k+11 < e) :
    Owner mem e p (k-1) := by
  rw [Owner, if_neg hc, Nat.sub_add_cancel (by omega)]
  refine ⟨hpk, .inl hzero, fun j h1 h2 => not_or.2 ⟨hnon j h1 h2, ?_⟩⟩
  omega

theorem pointer_high {m : ℕ} (hlt : m < 2^14) :
    (UInt8.ofNat (0xc0+m/256)).toNat = 192+m/256 := by
  rw [UInt8.toNat_ofNat']
  omega

theorem ofNat_zero_iff {m : ℕ} : UInt8.ofNat m = 0 ↔ m % 256 = 0 := by
  rw [← UInt8.toNat_inj, UInt8.toNat_ofNat']
  rfl

/-- The fields are counted from the right place, or from one byte behind it. -/
theorem owner_named {n : Name} (hplain : n.Plain) {p : ℕ} (hpos : 0 < p) (h : Holds mem p n.encode)
    (hzero : mem (p+n.encode.length) = 0) (he : p+n.encode.length+11 < e) :
    ∃ q, Owner mem e p q ∧ (n.Found → q+2 = p+n.encode.length) ∧
      (¬n.Found → q+1 = p+n.encode.length) := by
  obtain ⟨hbody, htail⟩ := (holds_append _ _ _ _).1 h
  have hnon := nonzero_of_holds hbody hplain.body
  have hlen : n.encode.length = (n.labels.flatMap Label.encode).length+(Name.tail n.pointer).length :=
    List.length_append
  have hfirst := fun hne : n.labels ≠ [] => label_first hne hbody
  have hnil : n.labels = [] → (n.labels.flatMap Label.encode).length = 0 := fun h => by rw [h]; rfl
  unfold Name.Found
  generalize (n.labels.flatMap Label.encode).length = b at *
  cases hptr : n.pointer with
  | none =>
    rw [hptr] at htail hlen
    have hone : n.encode.length = b+1 := hlen
    refine ⟨p+b-1, owner_scanned ?_ hpos (by omega) htail.1 hnon (by omega), fun _ => by omega,
      fun hnot => absurd (fun p hp => nomatch hp) hnot⟩
    by_cases hne : n.labels = []
    · rw [show p = p+b by rw [hnil hne]; rfl, htail.1]
      decide
    · exact hfirst hne
  | some m =>
    rw [hptr] at htail hlen
    have htwo : n.encode.length = b+2 := hlen
    obtain ⟨hhigh, hlow, -⟩ := htail
    have hlt := n.pointer_lt m hptr
    have htop := pointer_high hlt
    rw [← hhigh] at htop
    have hiff : (∀ q ∈ some m, n.labels = [] ∧ q < 256 ∨ q % 256 = 0) ↔
        n.labels = [] ∧ m < 256 ∨ m % 256 = 0 :=
      ⟨fun h => h m rfl, fun h q hq => Option.some.inj hq ▸ h⟩
    rw [hiff]
    by_cases halone : n.labels = [] ∧ m < 256
    · have hc : mem p = 0xc0 := UInt8.toNat_inj.1 (by
        rw [show p = p+b by rw [hnil halone.1]; rfl, htop, Nat.div_eq_of_lt halone.2]
        rfl)
      have hb := hnil halone.1
      exact ⟨p, by rw [Owner, if_pos hc], fun _ => by omega, fun hnot => absurd (.inl halone) hnot⟩
    have hc : mem p ≠ 0xc0 := by
      by_cases hne : n.labels = []
      · intro h0
        rw [show p+b = p by rw [hnil hne]; rfl, h0] at htop
        have hm : ¬m < 256 := fun h => halone ⟨hne, h⟩
        have h192 : UInt8.toNat 0xc0 = 192 := rfl
        omega
      · exact hfirst hne
    have hnon' : ∀ j, p ≤ j → j < p+b+1 → mem j ≠ 0 := by
      intro j h1 h2
      rcases Nat.lt_succ_iff_lt_or_eq.1 h2 with hlt' | rfl
      · exact hnon j h1 hlt'
      · intro h0
        rw [h0] at htop
        have h00 : UInt8.toNat 0 = 0 := rfl
        omega
    by_cases hend : m % 256 = 0
    · refine ⟨p+b+1-1, owner_scanned hc hpos (by omega) ?_ hnon' (by omega), fun _ => by omega,
        fun hnot => absurd (.inr hend) hnot⟩
      rw [hlow]
      exact ofNat_zero_iff.2 hend
    · refine ⟨p+b+2-1, owner_scanned hc hpos (by omega) ?_ ?_ (by omega), ?_, fun _ => by omega⟩
      · rwa [htwo, ← Nat.add_assoc] at hzero
      · intro j h1 h2
        rcases Nat.lt_succ_iff_lt_or_eq.1 h2 with hlt' | rfl
        · exact hnon' j h1 hlt'
        · rw [hlow]
          exact fun h => hend (ofNat_zero_iff.1 h)
      · exact fun hor => absurd hor (not_or.2 ⟨halone, hend⟩)

end Owner

/-! ## The answers -/

section Answers

variable {mem : Memory} {e : ℕ}

theorem length_record (type : ℕ) (r : Record) :
    (r.encode type).length = r.owner.encode.length+10+r.rdata.length := by
  have h := r.ttl_length
  simp only [Record.encode, List.length_append, List.length_cons, List.length_nil]
  omega

/-- Two bytes of a number. -/
theorem be16_of_holds {p v : ℕ} {bs : List UInt8} (hv : v < 2^16)
    (h : Holds mem p ([UInt8.ofNat (v/256), UInt8.ofNat v]++bs)) : be16 mem p = v := by
  rw [be16, h.1, h.2.1, UInt8.toNat_ofNat', UInt8.toNat_ofNat']
  omega

/-- The fields behind the name. -/
theorem record_fields {type p : ℕ} (htype : type < 256) {r : Record}
    (h : Holds mem p (r.encode type)) {l : ℕ} (hl : l = p+r.owner.encode.length) :
    mem l = 0 ∧ be16 mem l = type ∧ be16 mem (l+1) = type*256 ∧
      be16 mem (l+8) = r.rdata.length ∧ Holds mem (l+10) r.rdata := by
  obtain ⟨-, hrest⟩ := (holds_append _ _ _ _).1 h
  rw [← hl] at hrest
  obtain ⟨hhead, hrest⟩ := (holds_append _ _ _ _).1 hrest
  obtain ⟨-, hrest⟩ := (holds_append _ _ _ _).1 hrest
  obtain ⟨h0, h1, h2, -⟩ := hhead
  rw [r.ttl_length] at hrest
  have hbyte : (UInt8.ofNat type).toNat = type := by
    rw [UInt8.toNat_ofNat', Nat.mod_eq_of_lt htype]
  refine ⟨h0, ?_, ?_, be16_of_holds r.rdata_lt hrest, ((holds_append _ _ _ _).1 hrest).2⟩
  · rw [be16, h0, h1, hbyte]
    exact Nat.zero_add type
  · rw [be16, h1, h2, hbyte]
    exact Nat.add_zero (type*256)

theorem encode_pos (n : Name) : 0 < n.encode.length := by
  rw [Name.encode, List.length_append]
  cases n.pointer with
  | none => exact Nat.succ_pos _
  | some => exact Nat.succ_pos _

/-- The walk goes on behind a record of another name whose own name is found. -/
theorem cname_walk {r : Record} (hplain : r.owner.Plain) {p : ℕ} (hpos : 0 < p)
    (h : Holds mem p (r.encode cnameRecord)) (he : p+(r.encode cnameRecord).length+1 < e) (s : ℕ) :
    AnswerAt mem e p s ↔
      r.owner.Found ∧ AnswerAt mem e (p+(r.encode cnameRecord).length) s := by
  rw [length_record] at he ⊢
  obtain ⟨hzero, htype, hnext, hlen, -⟩ := record_fields (by decide) h rfl
  obtain ⟨q, hq, hgood, hbad⟩ := owner_named (e := e) hplain hpos ((holds_append _ _ _ _).1 h).1 hzero (by omega)
  have hname := encode_pos r.owner
  by_cases hf : r.owner.Found
  · have hat := hgood hf
    rw [answerAt_next (by omega) hq (by rw [hat, htype]), show q+10 = q+2+8 by omega, hat, hlen,
      and_iff_right hf]
    rw [show q+12+r.rdata.length = p+(r.owner.encode.length+10+r.rdata.length) by omega]
  · rw [answerAt_here (by omega) hq, show q+2 = q+1+1 from rfl, hbad hf, hnext]
    · exact iff_of_false (fun h => absurd h.1 (by decide)) fun h => hf h.1
    · rw [show q+2 = q+1+1 from rfl, hbad hf, hnext]
      decide

theorem address_walk {r : Record} (hplain : r.owner.Plain) {p : ℕ} (hpos : 0 < p)
    (h : Holds mem p (r.encode aRecord)) (hlength : r.rdata.length = 4)
    (he : p+(r.encode aRecord).length ≤ e) (s : ℕ) :
    AnswerAt mem e p s ↔ r.owner.Found ∧ s+2 = p+r.owner.encode.length := by
  rw [length_record] at he
  obtain ⟨hzero, htype, hnext, -, -⟩ := record_fields (by decide) h rfl
  obtain ⟨q, hq, hgood, hbad⟩ := owner_named (e := e) hplain hpos ((holds_append _ _ _ _).1 h).1 hzero (by omega)
  have hname := encode_pos r.owner
  by_cases hf : r.owner.Found
  · have hat := hgood hf
    rw [answerAt_here (by omega) hq, hat, htype, and_iff_right rfl, and_iff_right hf]
    · omega
    · rw [hat, htype]
      decide
  · rw [answerAt_here (by omega) hq, show q+2 = q+1+1 from rfl, hbad hf, hnext]
    · exact iff_of_false (fun h => absurd h.1 (by decide)) fun h => hf h.1
    · rw [show q+2 = q+1+1 from rfl, hbad hf, hnext]
      decide

/-- The whole section: all names have to be found. -/
theorem section_walk {cnames : List Record} {address : Record} {p : ℕ} (hpos : 0 < p)
    (hplain : ∀ r ∈ cnames++[address], r.owner.Plain) (hlength : address.rdata.length = 4)
    (h : Holds mem p (cnames.flatMap (Record.encode cnameRecord)++address.encode aRecord))
    (he : p+(cnames.flatMap (Record.encode cnameRecord)).length+(address.encode aRecord).length ≤ e)
    (s : ℕ) :
    AnswerAt mem e p s ↔ (∀ r ∈ cnames++[address], r.owner.Found) ∧
      s+2 = p+(cnames.flatMap (Record.encode cnameRecord)).length+address.owner.encode.length := by
  induction cnames generalizing p with
  | nil =>
    rw [List.nil_append, List.forall_mem_singleton] at hplain ⊢
    exact address_walk hplain hpos h hlength he s
  | cons r cnames ih =>
    rw [List.cons_append, List.forall_mem_cons] at hplain ⊢
    rw [List.flatMap_cons, List.append_assoc, holds_append] at h
    rw [List.flatMap_cons, List.length_append] at he ⊢
    have hlen := length_record aRecord address
    have hname := encode_pos address.owner
    rw [cname_walk hplain.1 hpos h.1 (by omega), ih (by omega) hplain.2 h.2 (by omega), and_assoc,
      ← Nat.add_assoc]

end Answers

/-! ## The question -/

section Question

variable {chunk : List UInt8} (h : dot ∉ chunk)

include h

theorem chunk_passes : ∀ b ∈ chunk, decide (b ≠ dot) = true := fun _ hb =>
  decide_eq_true fun heq => h (heq ▸ hb)

theorem hostName_end : hostName chunk = UInt8.ofNat chunk.length::chunk := by
  have hpass := chunk_passes h
  have hdrop := List.dropWhile_eq_nil_iff.2 hpass
  have htake : chunk.takeWhile (· ≠ dot) = chunk := by
    have hall := List.takeWhile_append_dropWhile (p := (· ≠ dot)) (l := chunk)
    rwa [hdrop, List.append_nil] at hall
  rw [hostName]
  split
  · rw [htake]
  · next hcons => exact absurd (hdrop.symm.trans hcons) (List.cons_ne_nil _ _).symm

theorem hostName_dot (name : List UInt8) :
    hostName (chunk++dot::name) = UInt8.ofNat chunk.length::chunk++hostName name := by
  have hpass := chunk_passes h
  have hdrop : (chunk++dot::name).dropWhile (· ≠ dot) = dot::name := by
    rw [List.dropWhile_append_of_pos hpass]
    rfl
  have htake : (chunk++dot::name).takeWhile (· ≠ dot) = chunk := by
    rw [List.takeWhile_append_of_pos hpass]
    exact List.append_nil chunk
  rw [hostName]
  split
  · next hnil => exact absurd (hdrop.symm.trans hnil) (List.cons_ne_nil _ _)
  · next hcons =>
    rw [htake, (List.cons.inj (hdrop.symm.trans hcons)).2]

end Question

/-- The labels of the host. -/
theorem hostName_labels {l : Label} {host : List Label} (h : ∀ m ∈ l::host, dot ∉ m.octets) :
    hostName ([dot].intercalate ((l::host).map Label.octets)) =
      (l::host).flatMap Label.encode := by
  induction host generalizing l with
  | nil =>
    rw [List.map_singleton, List.intercalate_singleton, hostName_end (h l (List.mem_singleton.2 rfl)),
      List.flatMap_singleton]
    rfl
  | cons m host ih =>
    rw [List.forall_mem_cons] at h
    rw [List.map_cons, List.map_cons, List.intercalate_cons_cons, List.append_assoc,
      List.singleton_append, hostName_dot h.1, ← List.map_cons, ih h.2]
    rfl

/-! ## The reply -/

section Reply

variable (R : Response) {mem : Memory}

theorem question_eq : (dnsSend R.name).drop 12 =
    R.host.flatMap Label.encode++[0, 0, UInt8.ofNat aRecord, 0, 1] := by
  have hpos := R.host_pos
  have hdot := fun m hm => (R.host_plain m hm).2
  unfold Sections.name
  cases hhost : R.host with
  | nil =>
    rw [hhost] at hpos
    cases hpos
  | cons l host =>
    rw [hhost] at hdot
    rw [dnsSend, hostName_labels hdot]
    exact List.drop_left' rfl

/-- The places of the parts of the payload. -/
theorem payload_parts {R : Response} (h : Holds mem 0 R.payload) :
    be16 mem 4 = 1 ∧ be16 mem 6 = R.nanswers ∧
      Holds mem 12 (R.host.flatMap Label.encode++[0, 0, UInt8.ofNat aRecord, 0, 1]) ∧
      Holds mem (12+(R.host.flatMap Label.encode).length+5) R.answerSection := by
  rw [Sections.payload, question_eq] at h
  obtain ⟨-, h⟩ := (holds_append _ _ _ _).1 h
  rw [Nat.zero_add, R.start_length] at h
  obtain ⟨hq, h⟩ := (holds_append _ _ _ _).1 h
  obtain ⟨hn, -⟩ := (holds_append _ _ _ _).1 h
  obtain ⟨-, h⟩ := (holds_append _ _ _ _).1 h
  obtain ⟨-, h⟩ := (holds_append _ _ _ _).1 h
  obtain ⟨hquestion, h⟩ := (holds_append _ _ _ _).1 h
  obtain ⟨hanswers, -⟩ := (holds_append _ _ _ _).1 h
  simp only [List.length_cons, List.length_nil, R.counts_length, Nat.zero_add, Nat.reduceAdd,
    List.length_append] at hquestion hanswers
  refine ⟨?_, @be16_of_holds _ _ _ [] R.further_lt hn, hquestion, ?_⟩
  · rw [be16, hq.1, hq.2.1]
    rfl
  · rw [Nat.add_assoc]
    exact hanswers

theorem length_payload : R.payload.length =
    12+(R.host.flatMap Label.encode).length+5+R.answerSection.length+R.rest.length := by
  rw [Sections.payload, question_eq]
  simp only [List.length_append, List.length_cons, List.length_nil, R.start_length, R.counts_length]
  omega

/-- The host name of the question ends at its zero. -/
theorem asked {R : Response} (h : Holds mem 0 R.payload) :
    Asked mem R.payload.length (12+(R.host.flatMap Label.encode).length) := by
  obtain ⟨-, -, hquestion, -⟩ := payload_parts h
  obtain ⟨hhost, hend⟩ := (holds_append _ _ _ _).1 hquestion
  have hplain : Name.Plain ⟨R.host, none, fun _ h => nomatch h⟩ := fun l hl => (R.host_plain l hl).1
  have hnon := nonzero_of_holds hhost hplain.body
  have hlen := length_payload R
  refine ⟨⟨Nat.le_add_right _ _, .inr hend.1, fun j h1 h2 => not_or.2 ⟨by omega, hnon j h1 h2⟩⟩,
    by omega, ?_⟩
  rw [be16, hend.2.1, hend.2.2.1]
  rfl

/-- The answer with the address is reached just where all names are found. -/
theorem answerAt_iff {R : Response} (h : Holds mem 0 R.payload) (hplain : R.Plain) (s : ℕ) :
    AnswerAt mem R.payload.length (12+(R.host.flatMap Label.encode).length+5) s ↔
      R.Found ∧ s+2 = 12+(R.host.flatMap Label.encode).length+5+
        (R.cnames.flatMap (Record.encode cnameRecord)).length+R.address.owner.encode.length := by
  obtain ⟨-, -, -, hanswers⟩ := payload_parts h
  have hlen := length_payload R
  have hsection : R.answerSection.length =
      (R.cnames.flatMap (Record.encode cnameRecord)).length+(R.address.encode aRecord).length :=
    List.length_append
  unfold Sections.Found Sections.Plain Sections.owners at *
  rw [List.forall_mem_map] at hplain ⊢
  exact section_walk (by omega) hplain R.address_length hanswers (by omega) s

theorem address_eq {R : Response} (h : Holds mem 0 R.payload) {s : ℕ}
    (hs : s+2 = 12+(R.host.flatMap Label.encode).length+5+
        (R.cnames.flatMap (Record.encode cnameRecord)).length+R.address.owner.encode.length) :
    addressAt mem R.payload.length s = .address R.address.rdata := by
  obtain ⟨-, -, -, hanswers⟩ := payload_parts h
  obtain ⟨-, haddress⟩ := (holds_append _ _ _ _).1 hanswers
  obtain ⟨-, -, -, hlength, hdata⟩ := record_fields (by decide) haddress rfl
  have hlen := length_payload R
  have hsection : R.answerSection.length =
      (R.cnames.flatMap (Record.encode cnameRecord)).length+(R.address.encode aRecord).length :=
    List.length_append
  have hrecord := length_record aRecord R.address
  have hfour := R.address_length
  rw [← hs, hfour] at hlength
  rw [← hs] at hdata
  have hload := hdata.load_eq
  rw [hfour] at hload
  rw [addressAt, if_pos (by rw [show s+10 = s+2+8 from rfl, hlength]; omega),
    show s+12 = s+2+10 from rfl, hload]

/-- The outcome for a reply. -/
theorem reply_outcome {R : Response} (h : Holds mem 0 R.payload) (hplain : R.Plain) (port : ℕ)
    {fuel : ℕ} (hfuel : R.payload.length < fuel) :
    ∃ outcome reads, handler mem R.payload.length fuel port port = some (outcome, reads) ∧
      (R.Found → outcome = .address R.address.rdata) ∧ (¬R.Found → outcome = .nothing) := by
  obtain ⟨hquery, hcount, -, -⟩ := payload_parts h
  have hasked := asked h
  have hsmall := R.payload_le
  obtain ⟨k, outcome, reads, hk, hrun, -, hanswered⟩ := skipped mem fuel hfuel
  obtain rfl := hk.unique hasked.1
  obtain ⟨reads', hans⟩ := hanswered hasked
  obtain ⟨outcome', reads'', hans', -, hfound, hnone⟩ :=
    answered_spec (e := R.payload.length) mem fuel (12+(R.host.flatMap Label.encode).length+5)
      reads' (by omega) (by omega) (by omega)
  rw [hans] at hans'
  cases hans'
  refine ⟨outcome, reads, ?_, fun hall => ?_, fun hnot => ?_⟩
  · rw [handler_self (by omega) hfuel, if_neg (not_not.2 hquery), if_neg, hrun]
    rw [hcount, Sections.nanswers]
    omega
  · have hname := encode_pos R.address.owner
    obtain ⟨s, hs⟩ : ∃ s, s+2 = 12+(R.host.flatMap Label.encode).length+5+
        (R.cnames.flatMap (Record.encode cnameRecord)).length+R.address.owner.encode.length :=
      ⟨_, Nat.sub_add_cancel (by omega)⟩
    rw [hfound s ((answerAt_iff h hplain s).2 ⟨hall, hs⟩), address_eq h hs]
  · exact hnone fun s hs => hnot ((answerAt_iff h hplain s).1 hs).1

/-- The address is the one that is stored just where all names are found. -/
theorem response_iff {R : Response} (hplain : R.Plain) : R.Right ↔ R.Found := by
  constructor
  · intro hright
    by_contra hnot
    have h := holds_store (fun _ => 0) 0 R.payload
    obtain ⟨rounds, hrounds⟩ := hright _ 0 h
    obtain ⟨_, hrun⟩ := hrounds (rounds+R.payload.length+1) (by omega)
    obtain ⟨outcome, _, hrun', -, hnone⟩ := reply_outcome h hplain 0
      (show R.payload.length < rounds+R.payload.length+1 by omega)
    rw [hrun, hnone hnot] at hrun'
    cases hrun'
  · refine fun hall mem port h => ⟨R.payload.length+1, fun fuel hfuel => ?_⟩
    obtain ⟨outcome, reads, hrun, hfound, -⟩ := reply_outcome h hplain port hfuel
    exact ⟨reads, hfound hall ▸ hrun⟩

/-- The handler stays in the payload just where enough is there, and it stores the address where
all names are found; of the replies without zero octets in their names, only there. -/
theorem handler_iff (mem : Memory) (len dest ourPort : ℕ) (R : Response) :
    (Safe mem len dest ourPort ↔ Enough mem len dest ourPort) ∧
      (R.Plain ∧ R.Found → R.Right) ∧ (R.Plain → (R.Right ↔ R.Plain ∧ R.Found)) :=
  ⟨enough_iff mem len dest ourPort, fun h => (response_iff h.1).2 h.2,
    fun h => (response_iff h).trans (and_iff_right h).symm⟩

end Reply

/-- An answer for the host `a` that is cut off in its address. -/
def cutReply : List UInt8 :=
  [0, 1, 0x81, 0x80, 0, 1, 0, 1, 0, 0, 0, 0, 1, 97, 0, 0, 1, 0, 1,
    0xc0, 12, 0, 1, 0, 1, 0, 0, 0, 60, 0, 4, 10]

theorem cut_answer : AnswerAt (fun p => cutReply.getD p 0) 32 19 19 := by
  refine ⟨19, .here 19, by decide, ?_, by decide⟩
  rw [Owner, if_pos (by decide)]

def labelA : Label := ⟨[97], by decide, by decide⟩
def labelB : Label := ⟨[98], by decide, by decide⟩

/-- The answer for `a.b` with the label `a` and a pointer to `b` in the question. -/
def pointed : Response where
  host := [labelA, labelB]
  host_pos := by decide
  host_plain := by decide
  start := [0, 1, 0x81, 0x80]
  start_length := rfl
  cnames := []
  address := ⟨⟨[labelA], some 14, by decide⟩, [0, 0, 0, 60], rfl, [10, 0, 0, 1], by decide⟩
  address_length := rfl
  further := 0
  further_lt := by decide
  counts := [0, 0, 0, 0]
  counts_length := rfl
  rest := []
  payload_le := by
    rw [Sections.payload, Sections.name, dnsSend, hostName_labels (by decide)]
    decide

/-- The first reply is read behind its end, and of the second one nothing is stored. -/
theorem replies_not_handled : ¬Safe (fun p => cutReply.getD p 0) 32 7 7 ∧ ¬pointed.Right := by
  constructor
  · rw [enough_iff]
    rintro (h | ⟨-, -, h⟩)
    · exact h rfl
    · have hasked : Asked (fun p => cutReply.getD p 0) 32 14 :=
        ⟨⟨by decide, by decide, by decide⟩, by decide, by decide⟩
      exact absurd ((h (by decide)).2 (by decide) 14 hasked 19 cut_answer) (by decide)
  · have hplain : pointed.Plain := fun n hn l hl => by
      obtain rfl := List.mem_singleton.1 hn
      obtain rfl := List.mem_singleton.1 hl
      decide
    rw [response_iff hplain]
    intro h
    exact absurd (h _ (List.mem_singleton.2 rfl) 14 rfl) (by decide)

end UBoot.Dns
