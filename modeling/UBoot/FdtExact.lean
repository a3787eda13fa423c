import UBoot.FdtCoverage

/-!
# Which bytes of a tree the regions are made of

For a tree whose names hold no `/` the path buffer of the walk is the full path
of the node. The regions are sorted and apart, and a byte of the structure block
is in one of them exactly if it belongs to a tag that was asked for; the one
exception is the end tag right behind the end of a listed node.
-/

set_option autoImplicit false

namespace UBoot.Fdt

/-! ## Regions are apart -/

/-- The stored regions and the open one have gaps between them. -/
structure Spaced (b : Blob) (w : Walk) : Prop where
  apart : ∀ k, k+1 < w.count → (w.region k).offset+(w.region k).size < (w.region (k+1)).offset
  opened : ∀ s, w.start = some s → w.count ≠ 0 →
    (w.region (w.count-1)).offset+(w.region (w.count-1)).size < offDtStruct b+s

theorem mark_spaced (b : Blob) (q : Search) (w : Walk) (taken : Bool) (off stopAt : ℕ)
    (htidy : Tidy b w off) (hs : Spaced b w) (hcount : (mark b q w taken off stopAt).count ≤ q.maxRegions) :
    Spaced b (mark b q w taken off stopAt) := by
  have hmax := mark_count b q w taken off stopAt hcount
  have hbase : offDtStruct b < 4294967296 := fdt32_lt b 8
  unfold mark at hcount ⊢
  cases taken with
  | true =>
    cases hst : w.start with
    | some s =>
      simp only
      exact hs
    | none =>
      simp only
      split_ifs with h
      · -- the last region is continued
        obtain ⟨h0, -, -⟩ := h
        have hlow := htidy.low (w.count-1) (by omega)
        have hfits := htidy.fits (w.count-1) (by omega)
        have hm : minus (w.region (w.count-1)).offset (offDtStruct b) =
            (w.region (w.count-1)).offset-offDtStruct b := by
          unfold minus w32
          omega
        refine ⟨fun k hk => hs.apart k (by simp only at hk; omega), ?_⟩
        intro s hsome hne
        simp only [Option.some.injEq] at hsome hne
        have hap := hs.apart (w.count-1-1) (by omega)
        rw [show w.count-1-1+1 = w.count-1 by omega] at hap
        simp only
        rw [← hsome, hm]
        omega
      · refine ⟨hs.apart, ?_⟩
        intro s hsome hne
        simp only [Option.some.injEq] at hsome hne
        have hhigh := htidy.high (w.count-1) (by omega)
        have hlow := htidy.low (w.count-1) (by omega)
        have hfits := htidy.fits (w.count-1) (by omega)
        have hend : off ≠ minus (w32 ((w.region (w.count-1)).offset+(w.region (w.count-1)).size))
            (offDtStruct b) := fun he => h ⟨hne, hmax, he⟩
        rw [w32_of_lt _ hfits] at hend
        unfold minus w32 at hend
        simp only
        omega
  | false =>
    cases hst : w.start with
    | none =>
      simp only
      exact hs
    | some s =>
      obtain ⟨h1, h2⟩ := htidy.start s hst
      simp only [hst] at hcount ⊢
      have hlt : w.count < q.maxRegions := by omega
      rw [if_pos hlt, w32_of_lt _ h2]
      have hopen := hs.opened s hst
      refine ⟨?_, by simp⟩
      intro k hk
      simp only at hk ⊢
      rw [Function.update_of_ne (by omega)]
      by_cases hkc : k+1 = w.count
      · rw [hkc, Function.update_self]
        have hk' : k = w.count-1 := by omega
        rw [hk']
        exact hopen (by omega)
      · rw [Function.update_of_ne hkc]
        exact hs.apart k (by omega)

theorem visit_spaced (b : Blob) (q : Search) (w w' : Walk) (off : ℕ) (htidy : Tidy b w off)
    (hs : Spaced b w) (h : visit b q w off = some (.ok w')) (hcount : w'.count ≤ q.maxRegions) :
    Spaced b w' := by
  obtain ⟨path, stack, want, taken, stopAt, rfl, -⟩ := visit_mark b q w w' off h
  exact mark_spaced b q _ taken off stopAt ⟨htidy.low, htidy.high, htidy.fits, htidy.start⟩
    ⟨hs.apart, hs.opened⟩ hcount

theorem findLoop_spaced (b : Blob) (hb : Rooted b) (q : Search) (fuel off : ℕ) (w w' : Walk) (nx : ℕ)
    (path : Name) (nodes : List (ℕ × Name)) (closed : Option Name) (hspot : Spot b off)
    (hsync : Sync q w path nodes closed) (htidy : Tidy b w off) (hs : Spaced b w)
    (h : findLoop b q fuel off w = some (.ok (w', nx))) (hcount : w'.count ≤ q.maxRegions) :
    Spaced b w' ∧ ∃ last, Along b off last ∧ (nextTag b last).tag = .done ∧
      nx = (nextTag b last).next := by
  induction fuel generalizing off w path nodes closed with
  | zero => cases h
  | succ fuel ih =>
    have hle := hspot.le
    obtain ⟨w1, hv, ⟨ht, hr⟩ | ⟨ht, hl⟩⟩ := findLoop_step b q fuel off w _ h
    · cases hr
      exact ⟨visit_spaced b q w w' off htidy hs hv hcount, off, .refl, ht, rfl⟩
    · obtain ⟨i, path', nodes', closed', -, hi, hin, hp⟩ := visit_passed b hb q w w1 path nodes
        closed fuel off (by omega) hspot.aligned hsync htidy ht hv
      have hc1 := findLoop_count b q fuel _ w1 _ hl hcount
      have hpass := hp hc1
      obtain ⟨hsp, last, hal, hd, hnx⟩ := ih _ w1 path' nodes' closed' (hspot.next b hb off ht)
        hpass.sync (hin ▸ hpass.tidy) (visit_spaced b q w w1 off htidy hs hv hc1) hl
      exact ⟨hsp, last, Relation.ReflTransGen.head ⟨ht, rfl⟩ hal, hd, hnx⟩

/-! ## The tags of a tree -/

/-- The end is a tag of four bytes, unless it comes with an error. -/
theorem nextTag_last (b : Blob) (o : ℕ) (ho : o ≤ 4294967284) (ho4 : o % 4 = 0)
    (h : (nextTag b o).tag = .done) : (nextTag b o).next = o+4 ∨
      (nextTag b o).next = errTruncated ∨ (nextTag b o).next = errBadstructure := by
  have htot : totalsize b < 4294967296 := fdt32_lt b 4
  unfold nextTag at h ⊢
  cases hp : offsetPtr b o 4 with
  | none => exact .inr (.inl rfl)
  | some p =>
    obtain ⟨-, hin⟩ := offsetPtr_inside b o 4 p (by omega) (by omega) hp
    have hw : w32 (o+4) = o+4 := w32_of_lt _ (by omega)
    rw [hp, hw] at h
    rw [hw]
    simp only at h ⊢
    cases hb : tagBody b (fdt32 b p) (o+4) with
    | none => exact .inr (.inr rfl)
    | some r =>
      obtain ⟨tag, e⟩ := r
      obtain ⟨-, -, hend⟩ := tagBody_ge b _ (o+4) tag e (by omega) hb
      rw [hb] at h
      simp only at h ⊢
      cases hq : offsetPtr b o (minus e o) with
      | none => exact .inr (.inr rfl)
      | some _ =>
        rw [hq] at h
        simp only at h ⊢
        left
        rw [hend (.inr h), tagalign, w32_of_lt _ (by omega)]
        omega

/-- A tag, the node it belongs to with the nodes around it, and the node that
ends right before it with the nodes around that; nodes are known by the offsets of
their begin tags, the innermost first. -/
structure TagIn where
  tag : Tag
  offset : ℕ
  next : ℕ
  nodes : List ℕ
  closed : List ℕ

@[grind]
def tags (b : Blob) : ℕ → ℕ → List ℕ → List ℕ → List TagIn
  | 0, _, _, _ => []
  | fuel+1, offset, nodes, closed =>
    let next := (nextTag b offset).next
    match (nextTag b offset).tag with
    | .done => []
    | .prop => ⟨.prop, offset, next, nodes, closed⟩::tags b fuel next nodes []
    | .nop => ⟨.nop, offset, next, nodes, closed⟩::tags b fuel next nodes []
    | .beginNode => ⟨.beginNode, offset, next, offset::nodes, closed⟩::
        tags b fuel next (offset::nodes) []
    | .endNode => ⟨.endNode, offset, next, nodes, closed⟩::tags b fuel next (nodes.drop 1) nodes

def allTags (b : Blob) : List TagIn := tags b walkFuel 0 [] []

def nodeName (b : Blob) (node : ℕ) : Name := cstrAt b (w32 (offDtStruct b+node+4))

/-- The names below the root, each behind a slash. -/
@[grind]
def namesBelow (b : Blob) : List ℕ → Name
  | [] => []
  | [_] => []
  | node::outer::rest => namesBelow b (outer::rest) ++ 47::nodeName b node

/-- The full path of the innermost of some nodes; that of the root is `/`. -/
@[grind]
def fullPath (b : Blob) : List ℕ → Name
  | [_] => [47]
  | nodes => namesBelow b nodes

/-- The root has no name; other names are not empty and hold no slash. -/
def WellNamed (b : Blob) : Prop :=
  ∀ t ∈ allTags b, t.tag = .beginNode →
    if t.nodes.length = 1 then nodeName b t.offset = []
    else nodeName b t.offset ≠ [] ∧ 47 ∉ nodeName b t.offset

/-! ## The path buffer -/

@[grind]
def pathsOf (b : Blob) : List ℕ → List (ℕ × Name)
  | [] => []
  | node::outer => (node, fullPath b (node::outer))::pathsOf b outer

def TagIn.item (b : Blob) (t : TagIn) : Item :=
  ⟨t.tag, t.offset, t.next, (pathsOf b t.nodes).head?,
    ((pathsOf b t.nodes).drop 1).head?.map Prod.snd, (pathsOf b t.closed).head?.map Prod.snd⟩

/-- The names of the open nodes below the root are proper. -/
@[grind]
def Named (b : Blob) : List ℕ → Prop
  | [] => True
  | [_] => True
  | node::outer::rest => (nodeName b node ≠ [] ∧ 47 ∉ nodeName b node) ∧ Named b (outer::rest)

/-- The buffer holds the path of the innermost node. In the root it is `/`, or
empty behind the first subnode. -/
@[grind]
def Buffer (b : Blob) (path : Name) : List ℕ → Prop
  | [] => path = []
  | [_] => path = [47] ∨ path = []
  | node::outer::rest => path = namesBelow b (node::outer::rest)

theorem parentPath_append (path name : Name) (h : 47 ∉ name) :
    parentPath (path ++ 47::name) = path := by
  have hall : ∀ c ∈ name.reverse, decide (c ≠ 47) = true := by
    intro c hc
    exact decide_eq_true (fun he => h (by rw [← he]; exact List.mem_reverse.mp hc))
  rw [parentPath, List.reverse_append, List.reverse_cons, List.append_assoc,
    List.dropWhile_append_of_pos hall]
  simp

theorem buffer_begin (b : Blob) (path : Name) (nodes : List ℕ) (node : ℕ) (h : Buffer b path nodes)
    (hn : Named b nodes) (hroot : nodes = [] → nodeName b node = []) :
    childPath path (nodeName b node) = fullPath b (node::nodes) := by
  match nodes, h, hn with
  | [], h, _ =>
    rw [show path = [] from h, hroot rfl]
    rfl
  | [_], h, _ =>
    rcases h with h | h <;> simp [childPath, h, fullPath, namesBelow]
  | inner::outer::rest, h, hn =>
    have hlen : path.length ≠ 1 := by
      rw [show path = _ from h, namesBelow, List.length_append, List.length_cons]
      have := List.length_pos_iff.mpr hn.1.1
      omega
    rw [childPath, if_pos hlen, show path = _ from h, List.append_assoc]
    rfl

theorem buffer_entered (b : Blob) (node : ℕ) (nodes : List ℕ) :
    Buffer b (fullPath b (node::nodes)) (node::nodes) := by
  cases nodes with
  | nil => exact .inl rfl
  | cons outer rest => rfl

theorem buffer_end (b : Blob) (path : Name) (nodes : List ℕ) (h : Buffer b path nodes)
    (hn : Named b nodes) : Buffer b (parentPath path) (nodes.drop 1) := by
  match nodes, h, hn with
  | [], h, _ =>
    rw [show path = [] from h]
    rfl
  | [_], h, _ =>
    rcases h with h | h <;> rw [h] <;> rfl
  | [inner, root], h, hn =>
    rw [show path = _ from h, namesBelow, parentPath_append _ _ hn.1.2]
    exact .inr rfl
  | inner::outer::third::rest, h, hn =>
    rw [show path = _ from h, namesBelow, parentPath_append _ _ hn.1.2]
    rfl

theorem named_drop (b : Blob) (nodes : List ℕ) (h : Named b nodes) : Named b (nodes.drop 1) := by
  match nodes, h with
  | [], _ => trivial
  | [_], _ => trivial
  | _::_::_, h => exact h.2

theorem items_tags (b : Blob) (fuel o : ℕ) (path : Name) (nodes closed : List ℕ)
    (hbuf : Buffer b path nodes) (hn : Named b nodes)
    (hw : ∀ t ∈ tags b fuel o nodes closed, t.tag = .beginNode →
      if t.nodes.length = 1 then nodeName b t.offset = []
      else nodeName b t.offset ≠ [] ∧ 47 ∉ nodeName b t.offset) :
    items b fuel o path (pathsOf b nodes) ((pathsOf b closed).head?.map Prod.snd) =
      (tags b fuel o nodes closed).map (TagIn.item b) := by
  induction fuel generalizing o path nodes closed with
  | zero => rfl
  | succ fuel ih =>
    unfold tags at hw ⊢
    unfold items
    cases ht : (nextTag b o).tag with
    | done => rfl
    | prop =>
      simp only [ht, List.mem_cons, forall_eq_or_imp] at hw
      simp only [List.map_cons, List.cons.injEq]
      exact ⟨rfl, ih _ path nodes [] hbuf hn hw.2⟩
    | nop =>
      simp only [ht, List.mem_cons, forall_eq_or_imp] at hw
      simp only [List.map_cons, List.cons.injEq]
      exact ⟨rfl, ih _ path nodes [] hbuf hn hw.2⟩
    | beginNode =>
      simp only [ht, List.mem_cons, forall_eq_or_imp] at hw
      obtain ⟨hname, hrest⟩ := hw
      have hroot : nodes = [] → nodeName b o = [] := by
        rintro rfl
        simpa using hname
      have hpath := buffer_begin b path nodes o hbuf hn hroot
      rw [nodeName] at hpath
      simp only [List.map_cons, List.cons.injEq]
      rw [hpath]
      refine ⟨rfl, ih _ _ (o::nodes) [] (buffer_entered b o nodes) ?_ hrest⟩
      cases nodes with
      | nil => trivial
      | cons outer rest => exact ⟨by simpa using hname, hn⟩
    | endNode =>
      simp only [ht, List.mem_cons, forall_eq_or_imp] at hw
      simp only [List.map_cons, List.cons.injEq]
      have hrest := ih (nextTag b o).next _ (nodes.drop 1) nodes (buffer_end b path nodes hbuf hn)
        (named_drop b nodes hn) hw.2
      refine ⟨rfl, ?_⟩
      rw [← hrest]
      cases nodes <;> rfl

/-! ## Tags and bytes -/

theorem tags_spot (b : Blob) (hb : Rooted b) (fuel o : ℕ) (nodes closed : List ℕ) (hspot : Spot b o) :
    ∀ t ∈ tags b fuel o nodes closed, o ≤ t.offset ∧ Spot b t.offset ∧
      t.tag = (nextTag b t.offset).tag ∧ t.tag ≠ .done ∧ t.next = (nextTag b t.offset).next := by
  induction fuel generalizing o nodes closed with
  | zero => simp [tags]
  | succ fuel ih =>
    have hle := hspot.le
    unfold tags
    cases ht : (nextTag b o).tag with
    | done => simp
    | _ =>
      have hne : (nextTag b o).tag ≠ .done := by rw [ht]; decide
      have hnext := (nextTag_next b hb o (by omega) hspot.aligned hne).1
      intro t hmem
      rcases List.mem_cons.mp hmem with rfl | hmem
      · exact ⟨le_rfl, hspot, ht.symm, by simp, rfl⟩
      · obtain ⟨h1, h2⟩ := ih _ _ _ (hspot.next b hb o hne) t hmem
        exact ⟨by omega, h2⟩

/-- A byte belongs to one tag only. -/
theorem tags_apart (b : Blob) (hb : Rooted b) (fuel o : ℕ) (nodes closed : List ℕ) (hspot : Spot b o) :
    ∀ t ∈ tags b fuel o nodes closed, ∀ u ∈ tags b fuel o nodes closed, ∀ x, t.offset ≤ x →
      x < t.next → u.offset ≤ x → x < u.next → t = u := by
  induction fuel generalizing o nodes closed with
  | zero => simp [tags]
  | succ fuel ih =>
    have hle := hspot.le
    unfold tags
    cases ht : (nextTag b o).tag with
    | done => simp
    | _ =>
      have hne : (nextTag b o).tag ≠ .done := by rw [ht]; decide
      have hspot' := hspot.next b hb o hne
      intro t hmem u hmem' x h1 h2 h3 h4
      rcases List.mem_cons.mp hmem with rfl | hmem <;> rcases List.mem_cons.mp hmem' with rfl | hmem'
      · rfl
      · have := (tags_spot b hb fuel _ _ _ hspot' u hmem').1
        simp only at h2
        omega
      · have := (tags_spot b hb fuel _ _ _ hspot' t hmem).1
        simp only at h4
        omega
      · exact ih _ _ _ hspot' t hmem u hmem' x h1 h2 h3 h4

/-- The tags lie one behind the other. -/
theorem along_tile (b : Blob) (o last x : ℕ) (h : Along b o last) (h1 : o ≤ x) (h2 : x < last) :
    ∃ o', Along b o o' ∧ (nextTag b o').tag ≠ .done ∧ o' ≤ x ∧ x < (nextTag b o').next := by
  induction h using Relation.ReflTransGen.head_induction_on with
  | refl => omega
  | head hstep _ ih =>
    obtain ⟨hne, hnext⟩ := hstep
    rename_i c d _
    by_cases hx : x < (nextTag b c).next
    · exact ⟨c, .refl, hne, h1, hx⟩
    · obtain ⟨o', ho, h3⟩ := ih (by omega)
      exact ⟨o', Relation.ReflTransGen.head ⟨hne, hnext⟩ ho, h3⟩

/-- The full path of the innermost of some nodes is listed. -/
def IsListed (b : Blob) (q : Search) (nodes : List ℕ) : Prop := nodes ≠ [] ∧ fullPath b nodes ∈ q.inc

/-- What is asked for: the properties, fillers and tags of a listed node, without
the excluded properties, and the tags of its direct subnodes. -/
def Included (b : Blob) (q : Search) (t : TagIn) : Prop :=
  IsListed b q t.nodes ∧
      (t.tag = .prop → q.excProp.any (strEq b (fdtString b (propNameoff b t.offset))) = false) ∨
    (t.tag = .beginNode ∨ t.tag = .endNode) ∧ IsListed b q (t.nodes.drop 1)

theorem listed_iff (b : Blob) (q : Search) (nodes : List ℕ) :
    Listed q.inc ((pathsOf b nodes).head?.map Prod.snd) ↔ IsListed b q nodes := by
  cases nodes with
  | nil => simp [pathsOf, Listed, IsListed]
  | cons node outer => simp [pathsOf, Listed, IsListed]

theorem pathsOf_drop (b : Blob) (nodes : List ℕ) : (pathsOf b nodes).drop 1 = pathsOf b (nodes.drop 1) := by
  cases nodes <;> rfl

theorem selected_iff (b : Blob) (q : Search) (t : TagIn) :
    Selected b q (t.item b) ↔ Included b q t ∨ t.tag = .endNode ∧ IsListed b q t.closed := by
  unfold Selected Included TagIn.item
  simp only [pathsOf_drop, listed_iff, or_assoc]

/-! ## The regions of a well-formed tree -/

structure WellFormed (b : Blob) : Prop where
  header : checkHeader b = 0
  inside : offDtStruct b+sizeDtStruct b ≤ totalsize b
  root : (nextTag b 0).tag = .beginNode
  names : WellNamed b

theorem WellFormed.rooted (b : Blob) (h : WellFormed b) : Rooted b :=
  ⟨struct_room b h.header (by rw [h.root]; decide)⟩

/-- The walk that has returned regions, up to the end tag. -/
structure Finished (b : Blob) (q : Search) (w : Walk) (last : ℕ) : Prop where
  size : sizeDtStruct b = last+4
  tag : (nextTag b last).tag = .done
  along : Along b 0 last
  room : offDtStruct b+sizeDtStruct b < 4294967296
  tidy : Tidy b w (sizeDtStruct b)
  spaced : Spaced b w
  start : ∃ s, w.start = some s ∧ s ≤ sizeDtStruct b
  ending : ∀ x, last ≤ x → x < sizeDtStruct b → Cov b w x
  before : ∀ t ∈ allTags b, ∀ x, t.offset ≤ x → x < t.next → t.next ≤ last ∧
    (Cov b w x ↔ Included b q t ∨ t.tag = .endNode ∧ IsListed b q t.closed)
  all : ∀ o, Along b 0 o → (nextTag b o).tag ≠ .done → ∃ t ∈ allTags b, t.offset = o

theorem allItems_tags (b : Blob) (h : WellNamed b) : allItems b = (allTags b).map (TagIn.item b) :=
  items_tags b walkFuel 0 [] [] [] rfl trivial h

theorem along_spot (b : Blob) (hb : Rooted b) (o o' : ℕ) (ho : Spot b o) (h : Along b o o') :
    Spot b o' := by
  induction h with
  | refl => exact ho
  | tail _ hstep ih =>
    obtain ⟨hne, rfl⟩ := hstep
    exact ih.next b hb _ hne

/-- The walk has one end. -/
theorem along_unique (b : Blob) (a o o' : ℕ) (h : Along b a o) (h' : Along b a o')
    (ho : (nextTag b o).tag = .done) (ho' : (nextTag b o').tag = .done) : o = o' := by
  induction h using Relation.ReflTransGen.head_induction_on with
  | refl =>
    cases Relation.ReflTransGen.cases_head h' with
    | inl heq => exact heq
    | inr hstep =>
      obtain ⟨_, ⟨hne, -⟩, -⟩ := hstep
      exact absurd ho hne
  | head hstep _ ih =>
    obtain ⟨hne, rfl⟩ := hstep
    cases Relation.ReflTransGen.cases_head h' with
    | inl heq =>
      rw [heq] at hne
      exact absurd ho' hne
    | inr hstep =>
      obtain ⟨_, ⟨-, rfl⟩, hrest⟩ := hstep
      exact ih hrest

theorem spot_zero (b : Blob) : Spot b 0 :=
  ⟨by omega, by omega, by have := fdt32_lt b 8; unfold offDtStruct; omega⟩

/-- The end of a tree inside of the blob is a tag. -/
theorem WellFormed.last (b : Blob) (hb : WellFormed b) (o : ℕ) (ho : Spot b o)
    (ht : (nextTag b o).tag = .done) (hn : (nextTag b o).next = sizeDtStruct b) :
    sizeDtStruct b = o+4 := by
  have hroom := hb.rooted.room
  have hin := hb.inside
  have hc := nextTag_last b o ho.le ho.aligned ht
  rw [hn] at hc
  unfold errTruncated errBadstructure err at hc
  omega

theorem findRegions_finished (b : Blob) (hb : WellFormed b) (q : Search) (count : ℕ)
    (region : ℕ → Region) (h : findRegions b q = some (.ok (count, region)))
    (hcount : count ≤ q.maxRegions) :
    ∃ w last, Finished b q w last ∧ (count, region) = closeWalk b q w (sizeDtStruct b) ∧
      w.count < q.maxRegions := by
  have hroom := hb.rooted.room
  have hin := hb.inside
  have htot : totalsize b < 4294967296 := fdt32_lt b 4
  unfold findRegions at h
  cases hl : findLoop b q walkFuel 0 startWalk with
  | none =>
    rw [hl] at h
    cases h
  | some r =>
    rw [hl] at h
    cases r with
    | error e => cases h
    | ok r =>
      obtain ⟨w', nx⟩ := r
      simp only at h
      by_cases hsize : nx ≠ sizeDtStruct b
      · rw [if_pos hsize] at h
        cases h
      rw [if_neg hsize, Option.some.injEq, Except.ok.injEq] at h
      rw [not_not] at hsize
      have hlt : w'.count < q.maxRegions := by
        have hc := congrArg Prod.fst h
        have hc' : (closeWalk b q w' nx).1 = w'.count+1 := rfl
        omega
      have hsync : Sync q startWalk [] [] none :=
        ⟨rfl, rfl, rfl, fun _ => by simp [startWalk, Listed]⟩
      have htidy : Tidy b startWalk 0 :=
        ⟨by simp [startWalk], by simp [startWalk], by simp [startWalk], by simp [startWalk]⟩
      obtain ⟨wl, last, hw', hnx, he⟩ := findLoop_ended b hb.rooted q walkFuel 0 startWalk w' nx [] []
        none (spot_zero b) hsync htidy hl hlt.le
      obtain ⟨hsp, last', hal, hd', hnx'⟩ := findLoop_spaced b hb.rooted q walkFuel 0 startWalk w' nx
        [] [] none (spot_zero b) hsync htidy ⟨by simp [startWalk], by simp [startWalk]⟩ hl hlt.le
      have hlast := hb.last b last he.spot he.done (by rw [← hnx, hsize])
      have hlast' := hb.last b last' (along_spot b hb.rooted 0 last' (spot_zero b) hal) hd'
        (by rw [← hnx', hsize])
      have hsame : last' = last := by omega
      rw [hsame] at hal
      have hm := mark_marked b q wl last nx nx (by omega) (by omega) (by omega) (.inr rfl) he.tidy true
        (by simp) (by rw [← hw']; exact hlt.le)
      rw [← hw', hsize] at hm
      have hitems := allItems_tags b hb.names
      refine ⟨w', last, ⟨hlast, he.done, hal, by omega, hm.tidy, hsp, ?_, ?_, ?_, ?_⟩, ?_, hlt⟩
      · obtain ⟨s, hs⟩ := Option.ne_none_iff_exists'.mp (hm.start.mpr rfl)
        exact ⟨s, hs, (hm.tidy.start s hs).1⟩
      · intro x h1 h2
        exact (hm.inside x h1 h2).mpr (.inl rfl)
      · intro t ht x h1 h2
        have hmem : t.item b ∈ allItems b := by
          rw [hitems]
          exact List.mem_map_of_mem ht
        have hr := (he.range _ hmem).2
        have hnext : t.next ≤ last := hr
        refine ⟨hnext, ?_⟩
        rw [hm.before x (by omega), he.inside _ hmem x h1 h2, selected_iff]
      · intro o ho hne
        obtain ⟨i, hi, rfl⟩ := he.all o ho hne
        have hi' : i ∈ allItems b := hi
        rw [hitems] at hi'
        obtain ⟨t, ht, rfl⟩ := List.mem_map.mp hi'
        exact ⟨t, ht, rfl⟩
      · rw [← hsize]
        exact h.symm

/-- The regions are sorted with gaps between them, lie in the structure block, and
hold exactly the bytes that are asked for. -/
structure Exact (b : Blob) (q : Search) (count : ℕ) (region : ℕ → Region) : Prop where
  apart : ∀ k, k+1 < count → (region k).offset+(region k).size < (region (k+1)).offset
  inside : ∀ k < count, offDtStruct b ≤ (region k).offset ∧
    (region k).offset+(region k).size ≤ offDtStruct b+sizeDtStruct b
  bytes : ∀ x < sizeDtStruct b, Within count region (offDtStruct b+x) ↔
    (∃ t ∈ allTags b, t.offset ≤ x ∧ x < t.next ∧ Included b q t) ∨
      ∃ o, Along b 0 o ∧ (nextTag b o).tag = .done ∧ o ≤ x

/-- No end tag that was not asked for stands right behind the end of a listed
node. -/
def NoTrailingEnd (b : Blob) (q : Search) : Prop :=
  ∀ t ∈ allTags b, t.tag = .endNode → IsListed b q t.closed → Included b q t

theorem regions_exact_iff (b : Blob) (hb : WellFormed b) (q : Search) (count : ℕ)
    (region : ℕ → Region) (h : findRegions b q = some (.ok (count, region)))
    (hcount : count ≤ q.maxRegions) : Exact b q count region ↔ NoTrailingEnd b q := by
  obtain ⟨w, last, hf, hclose, hlt⟩ := findRegions_finished b hb q count region h hcount
  obtain ⟨s, hs, hsn⟩ := hf.start
  have hroom := hf.room
  have hsize := hf.size
  have hm : minus (sizeDtStruct b) s = sizeDtStruct b-s := by
    unfold minus w32
    omega
  have hregion : count = w.count+1 ∧ region = Function.update w.region w.count
      ⟨offDtStruct b+s, sizeDtStruct b-s⟩ := by
    simp only [closeWalk, hs, Option.getD_some, if_pos hlt, w32_of_lt _ (show offDtStruct b+s <
      4294967296 by omega), hm, Prod.mk.injEq] at hclose
    exact hclose
  obtain ⟨rfl, rfl⟩ := hregion
  have hcov : ∀ x < sizeDtStruct b, Within (w.count+1) (Function.update w.region w.count
      ⟨offDtStruct b+s, sizeDtStruct b-s⟩) (offDtStruct b+x) ↔ Cov b w x := by
    intro x hx
    rw [within_update, Cov, hs]
    simp only [Option.some.injEq, exists_eq_left']
    refine or_congr_right ?_
    omega
  have hone : ∀ t ∈ allTags b, ∀ u ∈ allTags b, ∀ x, t.offset ≤ x → x < t.next → u.offset ≤ x →
      x < u.next → t = u := tags_apart b hb.rooted walkFuel 0 [] [] (spot_zero b)
  have hend : ∀ o, Along b 0 o → (nextTag b o).tag = .done → o = last := by
    intro o ho ht
    exact along_unique b 0 o last ho hf.along ht hf.tag
  constructor
  · intro he t ht htag hclosed
    obtain ⟨-, hspot, htag', -, hnext⟩ := tags_spot b hb.rooted walkFuel 0 [] [] (spot_zero b) t ht
    have hlt' := nextTag_moves b hb.rooted t.offset (by have := hspot.le; omega) hspot.aligned
      (by rw [← htag', htag]; decide) (by rw [← htag', htag]; decide)
    rw [← hnext] at hlt'
    obtain ⟨hle, hiff⟩ := hf.before t ht t.offset le_rfl hlt'
    have hin := (hcov t.offset (by omega)).mpr (hiff.mpr (.inr ⟨htag, hclosed⟩))
    rcases (he.bytes t.offset (by omega)).mp hin with ⟨u, hu, h1, h2, hinc⟩ | ⟨o, ho, hd, hle'⟩
    · rw [hone t ht u hu t.offset le_rfl hlt' h1 h2]
      exact hinc
    · have := hend o ho hd
      omega
  · intro hno
    refine ⟨?_, ?_, ?_⟩
    · intro k hk
      rw [Function.update_of_ne (by omega)]
      by_cases hkc : k+1 = w.count
      · have hop := hf.spaced.opened s hs (by omega)
        rw [hkc, Function.update_self, show k = w.count-1 by omega]
        exact hop
      · rw [Function.update_of_ne hkc]
        exact hf.spaced.apart k (by omega)
    · intro k hk
      by_cases hkc : k = w.count
      · rw [hkc, Function.update_self]
        simp only
        omega
      · rw [Function.update_of_ne hkc]
        exact ⟨hf.tidy.low k (by omega), hf.tidy.high k (by omega)⟩
    · intro x hx
      rw [hcov x hx]
      constructor
      · intro hc
        by_cases hxl : last ≤ x
        · exact .inr ⟨last, hf.along, hf.tag, hxl⟩
        obtain ⟨o, ho, hne, h1, h2⟩ := along_tile b 0 last x hf.along (by omega) (by omega)
        obtain ⟨t, ht, rfl⟩ := hf.all o ho hne
        obtain ⟨-, -, -, -, hnext⟩ := tags_spot b hb.rooted walkFuel 0 [] [] (spot_zero b) t ht
        rw [← hnext] at h2
        left
        refine ⟨t, ht, h1, h2, ?_⟩
        rcases (hf.before t ht x h1 h2).2.mp hc with hinc | ⟨htag, hclosed⟩
        · exact hinc
        · exact hno t ht htag hclosed
      · rintro (⟨t, ht, h1, h2, hinc⟩ | ⟨o, ho, hd, hle⟩)
        · exact (hf.before t ht x h1 h2).2.mpr (.inl hinc)
        · rw [hend o ho hd] at hle
          exact hf.ending x hle hx

instance (b : Blob) (q : Search) (nodes : List ℕ) : Decidable (IsListed b q nodes) :=
  inferInstanceAs (Decidable (_ ∧ _))

instance (b : Blob) (q : Search) (t : TagIn) : Decidable (Included b q t) :=
  inferInstanceAs (Decidable (_ ∧ _ ∨ _))

/-- The subnodes `a` and `b` of the root, of which `a` has the properties `x` and `y`. -/
def twoNodes : Blob := ofWords
  [0xd00dfeed, 0x74, 0x28, 0x70, 0, 0x11, 0x10, 0, 4, 0x48,
    1, 0,
    1, 0x61000000,
    3, 4, 0, 0x7000000,
    3, 4, 2, 0x8000000,
    2,
    1, 0x62000000,
    2,
    2, 9,
    0x78007900]

def pathA : Name := [47, 97]
def pathB : Name := [47, 98]

def search (inc excProp : List Name) : Search := ⟨inc, excProp, 8, 64⟩

instance (b : Blob) : Decidable (WellNamed b) := inferInstanceAs (Decidable (∀ _ ∈ _, _))

theorem twoNodes_wellFormed : WellFormed twoNodes :=
  ⟨by decide +kernel, by decide +kernel, by decide +kernel, by decide +kernel⟩

/-- The regions that were found, if they fit. -/
def foundRegions (b : Blob) (q : Search) : Option (ℕ × (ℕ → Region)) :=
  match findRegions b q with
  | some (.ok r) => if r.1 ≤ q.maxRegions then some r else none
  | _ => none

theorem foundRegions_ok (b : Blob) (q : Search) (h : (foundRegions b q).isSome = true) :
    ∃ r, foundRegions b q = some r ∧ findRegions b q = some (.ok r) ∧ r.1 ≤ q.maxRegions := by
  unfold foundRegions at h ⊢
  cases hf : findRegions b q with
  | none => simp [hf] at h
  | some r =>
    cases r with
    | error e => simp [hf] at h
    | ok r =>
      by_cases hr : r.1 ≤ q.maxRegions
      · exact ⟨r, by simp [hr], rfl, hr⟩
      · simp [hf, hr] at h

/-- Of `/a` the property `y` is left out; the end tags of its tree are apart. -/
theorem regions_exact_excluded : ∃ count region,
    findRegions twoNodes (search [pathA] [[121]]) = some (.ok (count, region)) ∧
    Exact twoNodes (search [pathA] [[121]]) count region := by
  obtain ⟨r, -, hr, hcount⟩ := foundRegions_ok twoNodes (search [pathA] [[121]])
    (by decide +kernel)
  refine ⟨r.1, r.2, hr, ?_⟩
  refine (regions_exact_iff twoNodes twoNodes_wellFormed _ r.1 r.2 hr hcount).mpr ?_
  unfold NoTrailingEnd
  decide +kernel

/-- With `/b` alone the end tag of the root is in a region. -/
theorem root_end_included : ∃ count region, WellFormed twoNodes ∧
    findRegions twoNodes (search [pathB] []) = some (.ok (count, region)) ∧
    count ≤ (search [pathB] []).maxRegions ∧
    ¬Exact twoNodes (search [pathB] []) count region := by
  obtain ⟨r, hfound, hr, hcount⟩ := foundRegions_ok twoNodes (search [pathB] [])
    (by decide +kernel)
  refine ⟨r.1, r.2, twoNodes_wellFormed, hr, hcount, ?_⟩
  intro he
  obtain ⟨w, last, hf, -⟩ := findRegions_finished twoNodes twoNodes_wellFormed _ r.1 r.2 hr hcount
  have hsize := hf.size
  have h72 : sizeDtStruct twoNodes = 72 := by decide +kernel
  have hregion : (foundRegions twoNodes (search [pathB] [])).any (fun r => decide
      (0 < r.1 ∧ (r.2 0).offset ≤ offDtStruct twoNodes+64 ∧
        offDtStruct twoNodes+64 < (r.2 0).offset+(r.2 0).size)) = true := by decide +kernel
  rw [hfound] at hregion
  have hin := (he.bytes 64 (by omega)).mp ⟨0, of_decide_eq_true hregion⟩
  rcases hin with ⟨t, ht, h1, h2, hinc⟩ | ⟨o, ho, hd, hle⟩
  · have hnone : ∀ t ∈ allTags twoNodes, ¬(t.offset ≤ 64 ∧ 64 < t.next ∧
        Included twoNodes (search [pathB] []) t) := by decide +kernel
    exact hnone t ht ⟨h1, h2, hinc⟩
  · have hlast := along_unique twoNodes 0 o last ho hf.along hd hf.tag
    omega

end UBoot.Fdt
