import UBoot.DefragStep
import UBoot.BlockTransfer

/-!
# The buffer under any fragments

A run hands the admitted packets to `NetDefragment` one by one. Beside the
state of the function it keeps which descriptors have been written and not
been overwritten by a payload since, and whether the packet in progress has
been returned. A fragment that has a header, that leaves the next hole alone,
and whose own rest has room for a descriptor behind it keeps the hole list in
its place; then every access stays in the buffer and every hole followed is
there.
-/

set_option autoImplicit false

namespace UBoot.Defrag
open UBoot.LinkedRecords UBoot.BlockTransfer

/-! ## The checks of `NetReceive` -/

def ipUdpHdrSize : ℕ := 28

/-- The sum of the 16-bit words as the processor reads them. -/
def netCksum (p : Bytes) (len : ℕ) : ℕ :=
  let xsum := ((List.range len).map fun k => get16 p (2*k)).sum
  let xsum := xsum % 65536+xsum/65536
  let xsum := xsum % 65536+xsum/65536
  xsum % 65536

/-- The sum is 0 or `0xffff`. -/
def netCksumOk (p : Bytes) (len : ℕ) : Bool := (netCksum p len+1)/2 % 32768 = 0

def ipDst (ip : Bytes) : ℕ := ntohs ip 16*65536+ntohs ip 18

/-- A packet behind its link-layer header, and the bytes left for it. -/
structure Packet where
  len : ℕ
  ip : Bytes

/-- What `NetReceive` checks before it calls `NetDefragment`. -/
def admits (netOurIP : ℕ) (p : Packet) : Bool :=
  ipUdpHdrSize ≤ p.len && ipLen p.ip ≤ p.len && (p.ip 0).toNat/16 = 4 && (p.ip 0).toNat % 16 ≤ 5 &&
    netCksumOk p.ip (ipHdrSize/2) &&
    (netOurIP = 0 || ipDst p.ip = netOurIP || ipDst p.ip = 4294967295)

def netReceive (netOurIP : ℕ) (s : State) (p : Packet) : Option Result :=
  if admits netOurIP p then netDefragment s p.ip else some ⟨s, none, []⟩

/-! ## Accesses -/

/-- The descriptors that are there after some accesses. -/
def liveAfter : List ℕ → List Access → List ℕ
  | live, [] => live
  | live, .hole i::as => liveAfter (i::live) as
  | live, .copy start len::as =>
    liveAfter (live.filter fun j => 8*j+8 ≤ start ∨ start+len ≤ 8*j) as
  | live, .header::as => liveAfter live as
  | live, .follow _::as => liveAfter live as

/-- Stores stay in `pkt_buff`, and the holes followed are there. -/
def Safe : List ℕ → List Access → Prop
  | _, [] => True
  | live, .hole i::as => 8*i+8 ≤ ipMaxudp ∧ Safe (i::live) as
  | live, .copy start len::as => start+len ≤ ipMaxudp ∧
    Safe (live.filter fun j => 8*j+8 ≤ start ∨ start+len ≤ 8*j) as
  | live, .header::as => Safe live as
  | live, .follow i::as => i ∈ live ∧ Safe live as

theorem safe_append (live : List ℕ) (as bs : List Access) :
    Safe live (as ++ bs) ↔ Safe live as ∧ Safe (liveAfter live as) bs := by
  induction as generalizing live with
  | nil => simp [Safe, liveAfter]
  | cons a as ih => cases a <;> simp [Safe, liveAfter, ih, and_assoc]

theorem liveAfter_append (live : List ℕ) (as bs : List Access) :
    liveAfter live (as ++ bs) = liveAfter (liveAfter live as) bs := by
  induction as generalizing live with
  | nil => rfl
  | cons a as ih => cases a <;> exact ih _

/-- Accesses to descriptors, without a payload. -/
def Plain (live : List ℕ) (as : List Access) : Prop :=
  ∀ a ∈ as, (∃ j ∈ live, a = .follow j) ∨ (∃ j, 8*j+8 ≤ ipMaxudp ∧ a = .hole j) ∨ a = .header

theorem plain_safe (live : List ℕ) (as : List Access) (h : Plain live as) : Safe live as := by
  induction as generalizing live with
  | nil => trivial
  | cons a as ih =>
    have hrest : ∀ live', live ⊆ live' → Plain live' as := by
      intro live' hsub b hb
      rcases h b (List.mem_cons_of_mem _ hb) with ⟨j, hj, rfl⟩ | hb'
      · exact .inl ⟨j, hsub hj, rfl⟩
      · exact .inr hb'
    rcases h a (by simp) with ⟨j, hj, rfl⟩ | ⟨j, hj, rfl⟩ | rfl
    · exact ⟨hj, ih _ (hrest _ (List.Subset.refl _))⟩
    · exact ⟨hj, ih _ (hrest _ (List.subset_cons_self _ _))⟩
    · exact ih _ (hrest _ (List.Subset.refl _))

theorem plain_live (live : List ℕ) (as : List Access) (hp : ∀ a ∈ as, ∀ s l, a ≠ .copy s l)
    (j : ℕ) (h : j ∈ live ∨ .hole j ∈ as) : j ∈ liveAfter live as := by
  induction as generalizing live with
  | nil => simpa [liveAfter] using h
  | cons a as ih =>
    have hp' : ∀ b ∈ as, ∀ s l, b ≠ .copy s l := fun b hb => hp b (List.mem_cons_of_mem _ hb)
    cases a with
    | header =>
      refine ih live hp' ?_
      simpa using h
    | follow k =>
      refine ih live hp' ?_
      simpa using h
    | hole k =>
      refine ih (k::live) hp' ?_
      rcases h with h | h
      · exact .inl (List.mem_cons_of_mem _ h)
      · rcases List.mem_cons.mp h with h | h
        · cases h
          exact .inl (by simp)
        · exact .inr h
    | copy s l => exact absurd rfl (hp _ (by simp) s l)

/-! ## Runs -/

/-- The hole list that the descriptors of a state spell. -/
def holesFrom (b : Bytes) : ℕ → ℕ → List (ℕ × ℕ)
  | 0, _ => []
  | fuel+1, h => (h, limit b h)::if next b h = 0 then [] else holesFrom b fuel (next b h)

def holes (s : State) : List (ℕ × ℕ) := holesFrom s.payload scanFuel s.firstHole

/-- The hole that the search stops at, if the fragment overlaps with it, can
take it: the fragment has a header, it does not reach the next hole, and the
rest of the hole, if there is one, starts at its end with room for eight bytes. -/
def Fits : List (ℕ × ℕ) → ℕ → ℤ → Bool → Prop
  | [], _, _, _ => True
  | (i, l)::rest, off8, len, more =>
    if l < 8*off8 then Fits rest off8 len more
    else (i : ℤ) < off8+(len+7).tdiv 8 → 0 ≤ len ∧ (∀ j ∈ indices rest, 8*off8+len ≤ 8*j) ∧
      (more = true → 8*off8+len < l → len % 8 = 0 ∧ 8*off8+len+8 ≤ ipMaxudp)

structure Sys where
  state : State
  live : List ℕ
  /-- The packet in progress has been returned. -/
  complete : Bool

/-- A fragment that is not dropped at once. -/
def Taken (netOurIP : ℕ) (p : Packet) : Prop := admits netOurIP p = true ∧
  ¬(offset8 p.ip = 0 ∧ moreFragments p.ip = false) ∧ ¬tooFar (offset8 p.ip) (fragLen p.ip)

instance (netOurIP : ℕ) (p : Packet) : Decidable (Taken netOurIP p) :=
  inferInstanceAs (Decidable (_ ∧ _))

def advance (netOurIP : ℕ) (s : Sys) (p : Packet) (r : Result) : Sys :=
  { state := r.state
    live := liveAfter s.live r.accesses
    complete := if Taken netOurIP p then (!isNew s.state p.ip && s.complete) || r.packet.isSome
      else s.complete }

def step (netOurIP : ℕ) (s : Sys) (p : Packet) (s' : Sys) : Prop :=
  ∃ r, netReceive netOurIP s.state p = some r ∧ s' = advance netOurIP s p r

def initial : Sys := ⟨zeroed, [], false⟩

/-- The packet is not a fragment, is dropped, or starts a new packet or adds
to one that is not complete, and then fits. -/
def Clear (netOurIP : ℕ) (s : Sys) (p : Packet) : Prop :=
  Taken netOurIP p → (isNew s.state p.ip ∨ s.complete = false) ∧
    Fits (if isNew s.state p.ip then [(0, 65535)] else holes s.state) (offset8 p.ip) (fragLen p.ip)
      (moreFragments p.ip)

structure Inv (s : Sys) : Prop where
  rep : s.complete = false → s.state.totalLen ≠ 0 →
    ∃ hs, Rep s.state hs ∧ ∀ j ∈ indices hs, j ∈ s.live

theorem holesFrom_eq (b : Bytes) (p : ℕ) (hs : List (ℕ × ℕ)) (hseg : Seg b p hs 0)
    (hinc : Increasing hs) (hne : hs ≠ []) (fuel : ℕ) (hfuel : hs.length ≤ fuel) :
    holesFrom b fuel (headIx hs 0) = hs := by
  induction hs generalizing p fuel with
  | nil => exact absurd rfl hne
  | cons x hs ih =>
    obtain ⟨n, rfl⟩ : ∃ n, fuel = n+1 := ⟨fuel-1, by simp at hfuel; omega⟩
    obtain ⟨hlim, -, hnext, hrest⟩ := hseg
    obtain ⟨hinc', hhead⟩ := increasing_tail x hs hinc
    change (x.1, limit b x.1)::(if next b x.1 = 0 then [] else holesFrom b n (next b x.1)) = _
    rw [hlim]
    cases hs with
    | nil =>
      rw [if_pos (by simpa [headIx] using hnext)]
    | cons y ys =>
      rw [if_neg (by rw [hnext]; exact hhead (by simp)), hnext,
        ih x.1 hrest hinc' (by simp) n (by simpa using hfuel)]

theorem holes_eq (s : State) (hs : List (ℕ × ℕ)) (h : Rep s hs) : holes s = hs := by
  have hlen := ordered_length hs h.ordered
  rw [holes, h.linked.first]
  exact holesFrom_eq s.payload 0 hs h.linked.seg (ordered_increasing hs h.ordered) h.ne scanFuel
    (by unfold scanFuel; omega)

theorem fits_hit (pre post : List (ℕ × ℕ)) (i l off8 : ℕ) (len : ℤ) (more : Bool)
    (hpre : ∀ x ∈ pre, x.2 < 8*off8) (hl : 8*off8 ≤ l) (hov : (i : ℤ) < off8+(len+7).tdiv 8)
    (h : Fits (pre ++ (i, l)::post) off8 len more) :
    0 ≤ len ∧ Hit pre i l off8 len.toNat ∧ Room l post off8 len.toNat more := by
  induction pre with
  | nil =>
    change (if l < 8*off8 then _ else _) at h
    rw [if_neg (by omega)] at h
    obtain ⟨h0, h1, h2⟩ := h hov
    obtain ⟨n, rfl⟩ := Int.eq_ofNat_of_zero_le h0
    rw [Int.tdiv_eq_ediv_of_nonneg (by omega)] at hov
    simp only [Int.toNat_natCast]
    refine ⟨h0, ⟨by simp, hl, by omega⟩, ⟨fun j hj => ?_, fun hm hlt => ?_⟩⟩
    · have := h1 j hj
      omega
    · have := h2 hm (by omega)
      omega
  | cons x pre ih =>
    obtain ⟨k, m⟩ := x
    have hx := hpre (k, m) (by simp)
    change (if m < 8*off8 then Fits (pre ++ (i, l)::post) off8 len more else _) at h
    rw [if_pos hx] at h
    obtain ⟨h0, h1, h2⟩ := ih (fun y hy => hpre y (List.mem_cons_of_mem _ hy)) h
    exact ⟨h0, ⟨hpre, h1.reaches, h1.overlap⟩, h2⟩

/-! ## One packet -/

theorem follows_plain (live is : List ℕ) (h : ∀ j ∈ is, j ∈ live) :
    Plain live (is.map .follow) := by
  intro a ha
  obtain ⟨j, hj, rfl⟩ := List.mem_map.mp ha
  exact .inl ⟨j, h j hj, rfl⟩

theorem follows_live (live is : List ℕ) : liveAfter live (is.map .follow) = live := by
  induction is with
  | nil => rfl
  | cons j js ih => exact ih

theorem headers_live (live : List ℕ) (as : List Access) (h : ∀ a ∈ as, a = .header) :
    liveAfter live as = live := by
  induction as with
  | nil => rfl
  | cons a as ih =>
    rw [h a (by simp)]
    exact ih fun b hb => h b (List.mem_cons_of_mem _ hb)

theorem fresh_inside (post : List (ℕ × ℕ)) (l off8 len : ℕ) (more : Bool)
    (hroom : Room l post off8 len more) :
    ∀ j ∈ fresh (cut l off8 len more) off8 len, 8*j+8 ≤ ipMaxudp := by
  intro j hj
  unfold fresh at hj
  split_ifs at hj with h
  · cases hj
  · rw [List.mem_singleton] at hj
    obtain ⟨-, h1, h2⟩ := rest_place post l off8 len more hroom (by omega)
    omega

/-- What a fragment that is taken accesses, and what is there afterwards. -/
theorem received_safe (s : State) (r : Result) (pre post : List (ℕ × ℕ)) (i l off8 len : ℕ)
    (more : Bool) (ip : Bytes) (live : List ℕ) (hord : Ordered (pre ++ (i, l)::post))
    (hlive : ∀ j ∈ indices (pre ++ (i, l)::post), j ∈ live) (hend : 8*off8+len ≤ ipMaxudp)
    (hhit : Hit pre i l off8 len) (hroom : Room l post off8 len more)
    (h : Received s r (pre ++ (i, l)::post) (updated pre i (cut l off8 len more) post off8 len)
      (fresh (cut l off8 len more) off8 len) off8 len more ip) :
    Safe live r.accesses ∧ ∀ j ∈ indices (updated pre i (cut l off8 len more) post off8 len),
      j ∈ liveAfter live r.accesses := by
  obtain ⟨as, rest, heq, has, hnew, hrest⟩ := h.accesses
  have hinside : ∀ j ∈ indices (pre ++ (i, l)::post), 8*j+8 ≤ ipMaxudp := by
    intro j hj
    obtain ⟨p, hp, rfl⟩ := List.mem_map.mp hj
    exact (hord.ok p hp).inside
  have hplain : Plain live as := by
    intro a ha
    rcases has a ha with ⟨j, hj, rfl⟩ | ⟨j, hj, rfl⟩
    · exact .inl ⟨j, hlive j hj, rfl⟩
    · rcases List.mem_append.mp hj with hj | hj
      · exact .inr (.inl ⟨j, hinside j hj, rfl⟩)
      · exact .inr (.inl ⟨j, fresh_inside post l off8 len more hroom j hj, rfl⟩)
  have hcopy : ∀ a ∈ as, ∀ s l, a ≠ .copy s l := by
    rintro a ha s l rfl
    rcases has _ ha with ⟨j, -, hj⟩ | ⟨j, -, hj⟩ <;> cases hj
  rw [heq]
  constructor
  · rw [safe_append]
    refine ⟨plain_safe live as hplain, hend, plain_safe _ rest fun a ha => .inr (.inr (hrest a ha))⟩
  · intro j hj
    obtain ⟨hold, hout⟩ := updated_indices pre post i l off8 len more hord hhit hroom j hj
    have hmem : j ∈ liveAfter live as := plain_live live as hcopy j (by
      rcases hold with hold | hold
      · exact .inl (hlive j hold)
      · exact .inr (hnew j hold))
    rw [liveAfter_append]
    change j ∈ liveAfter (List.filter _ _) rest
    rw [headers_live _ rest hrest]
    exact List.mem_filter.mpr ⟨hmem, by simpa using hout⟩

theorem place_safe (s : State) (ip : Bytes) (hs : List (ℕ × ℕ)) (live : List ℕ) (hrep : Rep s hs)
    (hlive : ∀ j ∈ indices hs, j ∈ live) (hfar : ¬tooFar (offset8 ip) (fragLen ip))
    (hfits : Fits hs (offset8 ip) (fragLen ip) (moreFragments ip)) :
    ∃ r, place s ip = some r ∧ Safe live r.accesses ∧ (r.packet = none →
      ∃ hs', Rep r.state hs' ∧ ∀ j ∈ indices hs', j ∈ liveAfter live r.accesses) := by
  rcases split_at hs (8*offset8 ip) with hall | ⟨pre, i, l, post, rfl, hpre, hl⟩
  · refine ⟨_, place_beyond s ip hs hrep hall, plain_safe _ _ (follows_plain live _ hlive), ?_⟩
    rw [follows_live]
    exact fun _ => ⟨hs, hrep, hlive⟩
  refine ⟨_, place_found s ip pre post i l hrep hpre hl, ?_⟩
  have hsub : ∀ j ∈ indices (pre ++ [(i, l)]), j ∈ live := by
    intro j hj
    refine hlive j ?_
    rw [indices_append] at hj ⊢
    rcases List.mem_append.mp hj with hj | hj
    · exact List.mem_append_left _ hj
    · refine List.mem_append_right _ ?_
      rw [indices_cons]
      simp [indices] at hj
      simp [hj]
  simp only [safe_append, liveAfter_append, follows_live]
  by_cases hov : (i : ℤ) < offset8 ip+(fragLen ip+7).tdiv 8
  · obtain ⟨h0, hhit, hroom⟩ := fits_hit pre post i l _ _ _ hpre hl hov hfits
    obtain ⟨n, hn⟩ := Int.eq_ofNat_of_zero_le h0
    rw [hn] at hhit hroom hfar ⊢
    rw [Int.toNat_natCast] at hhit hroom
    have hend : 8*offset8 ip+n ≤ ipMaxudp := by
      unfold tooFar at hfar
      omega
    have hmax : ipMaxudp = 16464 := rfl
    have hrec := receive_received s pre post i l _ n (moreFragments ip) ip hrep hend hhit hroom
    obtain ⟨h1, h2⟩ := received_safe s _ pre post i l _ n _ ip live hrep.ordered hlive hend hhit hroom
      hrec
    refine ⟨⟨plain_safe _ _ (follows_plain live _ hsub), h1⟩, fun hnone => ?_⟩
    have hne : updated pre i (cut l (offset8 ip) n (moreFragments ip)) post (offset8 ip) n ≠ [] := by
      intro hnil
      have hp := hrec.packet
      rw [if_pos hnil, hnone] at hp
      cases hp
    exact ⟨_, ⟨updated_ordered pre post i l _ n _ hrep.ordered hhit hroom (by omega),
      hrec.linked hne, hne⟩, h2⟩
  · rw [receive_missed s i _ _ _ ip (by omega)]
    exact ⟨⟨plain_safe _ _ (follows_plain live _ hsub), trivial⟩, fun _ => ⟨_, hrep, hlive⟩⟩

theorem netReceive_other (netOurIP : ℕ) (s : State) (p : Packet) (h : ¬Taken netOurIP p) :
    ∃ packet, netReceive netOurIP s p = some ⟨s, packet, []⟩ := by
  unfold netReceive netDefragment defragment
  split_ifs with h1 h2 h3 h4
  · exact ⟨_, rfl⟩
  · exact ⟨_, rfl⟩
  · exact absurd ⟨h1, h2, h3⟩ h
  · exact absurd ⟨h1, h2, h3⟩ h
  · exact ⟨_, rfl⟩

theorem netReceive_taken (netOurIP : ℕ) (s : State) (p : Packet) (h : Taken netOurIP p) :
    netReceive netOurIP s p = if isNew s p.ip then (place (reset s p.ip) p.ip).map fun r =>
      { r with accesses := [.hole 0, .header] ++ r.accesses } else place s p.ip := by
  obtain ⟨h1, h2, h3⟩ := h
  unfold netReceive netDefragment defragment
  rw [if_pos h1, if_neg h2, if_neg h3]

theorem taken_step (netOurIP : ℕ) (s : Sys) (p : Packet) (hinv : Inv s)
    (hclear : Clear netOurIP s p) (h : Taken netOurIP p) :
    ∃ r, netReceive netOurIP s.state p = some r ∧ Safe s.live r.accesses ∧ (r.packet = none →
      ∃ hs, Rep r.state hs ∧ ∀ j ∈ indices hs, j ∈ liveAfter s.live r.accesses) := by
  obtain ⟨hcomp, hfits⟩ := hclear h
  rw [netReceive_taken netOurIP s.state p h]
  by_cases hnew : isNew s.state p.ip
  · rw [if_pos hnew] at hfits ⊢
    obtain ⟨r, hr, hsafe, hrest⟩ := place_safe (reset s.state p.ip) p.ip [(0, 65535)] (0::s.live)
      (reset_rep _ _) (by simp [indices]) h.2.2 hfits
    rw [hr]
    exact ⟨_, rfl, ⟨by decide, hsafe⟩, hrest⟩
  · rw [if_neg hnew] at hfits ⊢
    obtain ⟨hs, hrep, hlive⟩ := hinv.rep (hcomp.resolve_left hnew) fun h0 => hnew (.inl h0)
    rw [holes_eq s.state hs hrep] at hfits
    exact place_safe s.state p.ip hs s.live hrep hlive h.2.2 hfits

theorem advance_inv (netOurIP : ℕ) (s : Sys) (p : Packet) (hinv : Inv s)
    (hclear : Clear netOurIP s p) :
    ∃ r, netReceive netOurIP s.state p = some r ∧ Safe s.live r.accesses ∧
      Inv (advance netOurIP s p r) := by
  by_cases h : Taken netOurIP p
  · obtain ⟨r, hr, hsafe, hrest⟩ := taken_step netOurIP s p hinv hclear h
    refine ⟨r, hr, hsafe, ⟨fun hc _ => hrest ?_⟩⟩
    simp only [advance, if_pos h, Bool.or_eq_false_iff, Option.isSome_eq_false_iff,
      Option.isNone_iff_eq_none] at hc
    exact hc.2
  · obtain ⟨packet, hr⟩ := netReceive_other netOurIP s.state p h
    refine ⟨_, hr, trivial, ⟨fun hc ht => ?_⟩⟩
    simp only [advance, if_neg h] at hc
    exact hinv.rep hc ht

theorem reach_inv (netOurIP : ℕ) (s : Sys)
    (h : Reach (step netOurIP) (Clear netOurIP) initial s) : Inv s := by
  refine reach_invariant _ _ Inv ?_ initial s ⟨fun _ h0 => absurd rfl h0⟩ h
  rintro s p s' hinv hclear ⟨r, hr, rfl⟩
  obtain ⟨r', hr', -, hnext⟩ := advance_inv netOurIP s p hinv hclear
  rw [hr] at hr'
  cases hr'
  exact hnext

/-- As long as the fragments fit and none comes for a packet that has been
returned, the search ends, every store stays in the buffer and every hole
followed is there. -/
theorem defragment_buffer_safe (netOurIP : ℕ) (s : Sys)
    (h : Reach (step netOurIP) (Clear netOurIP) initial s) (p : Packet)
    (hclear : Clear netOurIP s p) :
    ∃ r, netReceive netOurIP s.state p = some r ∧ Safe s.live r.accesses := by
  obtain ⟨r, hr, hsafe, -⟩ := advance_inv netOurIP s p (reach_inv netOurIP s h) hclear
  exact ⟨r, hr, hsafe⟩

/-- A header of 20 bytes with the given bytes, and zeros behind it. -/
def packetOf (len : ℕ) (bytes : List UInt8) : Packet := ⟨len, fun x => bytes.getD x 0⟩

/-- The first eight bytes of a packet of 10.0.0.1 for 10.0.0.2. -/
def firstFragment : Packet :=
  packetOf 46 [0x45, 0, 0, 28, 0, 1, 0x20, 0, 64, 17, 70, 206, 10, 0, 0, 1, 10, 0, 0, 2]

/-- `ip_len` is 12, less than the header. -/
def shortFragment : Packet :=
  packetOf 46 [0x45, 0, 0, 12, 0, 1, 0x20, 1, 64, 17, 70, 221, 10, 0, 0, 1, 10, 0, 0, 2]

theorem defragment_buffer_safe_first : Clear 0x0a000002 initial firstFragment ∧
    ∃ r, netReceive 0x0a000002 initial.state firstFragment = some r ∧ Safe [] r.accesses := by
  have hclear : Clear 0x0a000002 initial firstFragment := by
    intro _
    have hnew : isNew initial.state firstFragment.ip := .inl rfl
    refine ⟨.inl hnew, ?_⟩
    have hoff : offset8 firstFragment.ip = 0 := by decide
    have hlen : fragLen firstFragment.ip = 8 := by decide
    rw [if_pos hnew, hoff, hlen]
    simp [Fits, indices, ipMaxudp, ipPktsize, ipHdrSize]
  exact ⟨hclear, defragment_buffer_safe _ initial .refl _ hclear⟩

/-- A copy of 4294967288 bytes. -/
theorem short_header_overruns : ¬∀ (netOurIP : ℕ) (s : Sys),
    Reach (step netOurIP) (fun _ _ => True) initial s → ∀ p,
    ∃ r, netReceive netOurIP s.state p = some r ∧ Safe s.live r.accesses := by
  intro h
  obtain ⟨r, hr, hsafe⟩ := h 0x0a000002 initial .refl shortFragment
  have htaken : Taken 0x0a000002 shortFragment := by decide
  have hoff : offset8 shortFragment.ip = 1 := by decide
  have hlen : fragLen shortFragment.ip = -8 := by decide
  have hmore : moreFragments shortFragment.ip = true := by decide
  rw [netReceive_taken _ _ _ htaken, if_pos (.inl rfl), place_found _ _ [] [] 0 65535
    (reset_rep _ _) (by simp) (by rw [hoff]; decide), hoff, hlen, hmore] at hr
  cases hr
  simp [receive, truncate, updateHoles, splitHole, indices, Safe, ipMaxudp, ipPktsize, ipHdrSize,
    reset] at hsafe

end UBoot.Defrag
