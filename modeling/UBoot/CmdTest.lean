import UBoot.EnvText
import UBoot.Tftp

/-!
# The command `test`

`do_test` walks over its words with a stride of one, two or three and keeps the value so
far, the value before the last connective and the connective in three integers. Beside it
stands the grammar of the expressions. A word that is an operator is one wherever an
operand could begin, and a `!` in front always negates.
-/

set_option autoImplicit false

namespace UBoot.CmdTest
open UBoot.HashTable UBoot.EnvText UBoot.Tftp

def bang : CStr := [33]
def dashO : CStr := [45, 111]
def dashA : CStr := [45, 97]
def dashZ : CStr := [45, 122]
def dashN : CStr := [45, 110]

/-- A `long` of 32 bits. -/
def toLong (n : ℕ) : ℤ := if n < 2147483648 then n else n-4294967296

def simpleStrtol (s : CStr) : ℤ :=
  if s.head? = some 45 then toLong ((4294967296-simpleStrtoul10 s.tail) % 4294967296)
  else toLong (simpleStrtoul10 s)

inductive Op
  | equal | unequal | greater | less | eq | ne | lt | le | gt | ge
deriving DecidableEq, Repr

def Op.text : Op → CStr
  | .equal => [61]
  | .unequal => [33, 61]
  | .greater => [62]
  | .less => [60]
  | .eq => [45, 101, 113]
  | .ne => [45, 110, 101]
  | .lt => [45, 108, 116]
  | .le => [45, 108, 101]
  | .gt => [45, 103, 116]
  | .ge => [45, 103, 101]

def Op.all : List Op := [.equal, .unequal, .greater, .less, .eq, .ne, .lt, .le, .gt, .ge]

def Op.of (s : CStr) : Option Op := Op.all.find? (fun o => s = o.text)

/-- Strings are equal when `strcmp` is 0; the order is that of `strcmp`. -/
def Op.holds (o : Op) (a b : CStr) : Bool :=
  match o with
  | .equal => a = b
  | .unequal => a ≠ b
  | .greater => 0 < strcmp a b
  | .less => strcmp a b < 0
  | .eq => simpleStrtol a = simpleStrtol b
  | .ne => simpleStrtol a ≠ simpleStrtol b
  | .lt => simpleStrtol a < simpleStrtol b
  | .le => simpleStrtol a ≤ simpleStrtol b
  | .gt => simpleStrtol b < simpleStrtol a
  | .ge => simpleStrtol b ≤ simpleStrtol a

def toInt (b : Bool) : ℤ := if b then 1 else 0

structure Flags where
  expr : ℤ
  lastExpr : ℤ
  lastCmp : ℤ
deriving DecidableEq, Repr

/-- A primary has the value `v`. -/
def Flags.join (f : Flags) (v : Bool) : Flags :=
  ⟨if f.lastCmp = 0 then toInt (f.lastExpr ≠ 0 ∨ v = true)
    else if f.lastCmp = 1 then toInt (f.lastExpr ≠ 0 ∧ v = true)
    else toInt v, f.lastExpr, -1⟩

/-- The loop; an error leaves it with the value 1. -/
@[grind]
def loop : List CStr → Flags → ℤ
  | [], f => f.expr
  | a::ap, f =>
    if a = dashO then loop ap ⟨f.expr, f.expr, 0⟩
    else if a = dashA then loop ap ⟨f.expr, f.expr, 1⟩
    else if a = dashZ ∨ a = dashN then
      match ap with
      | [] => 1
      | s::ap => loop ap (f.join (if a = dashZ then s = [] else s ≠ []))
    else
      match ap with
      | op::b::ap =>
        match Op.of op with
        | none => 1
        | some o => loop ap (f.join (o.holds a b))
      | _ => 1

def negated (args : List CStr) : Prop := args.head? = some bang

instance (args : List CStr) : Decidable (negated args) := inferInstanceAs (Decidable (_ = _))

def operands (args : List CStr) : List CStr := if negated args then args.tail else args

def doTest (argv : List CStr) : ℤ :=
  if argv.length < 3 then 1
  else
    let expr := loop (operands argv.tail) ⟨-1, -1, -1⟩
    let expr := if negated argv.tail then toInt (expr = 0) else expr
    toInt (expr = 0)

/-! ## Expressions -/

def operators : List CStr := [dashO, dashA, dashZ, dashN]

inductive Primary
  | empty (s : CStr)
  | nonempty (s : CStr)
  | compare (a : CStr) (ha : a ∉ operators) (o : Op) (b : CStr)

def Primary.args : Primary → List CStr
  | .empty s => [dashZ, s]
  | .nonempty s => [dashN, s]
  | .compare a _ o b => [a, o.text, b]

def Primary.value : Primary → Bool
  | .empty s => s = []
  | .nonempty s => s ≠ []
  | .compare a _ o b => o.holds a b

inductive Conn
  | or | and
deriving DecidableEq, Repr

def Conn.text : Conn → CStr
  | .or => dashO
  | .and => dashA

def Conn.apply : Conn → Bool → Bool → Bool
  | .or, v, w => v || w
  | .and, v, w => v && w

structure Expr where
  first : Primary
  rest : List (Conn × Primary)

def Expr.args (e : Expr) : List CStr :=
  e.first.args ++ e.rest.flatMap (fun r => r.1.text::r.2.args)

/-- From left to right. -/
def Expr.value (e : Expr) : Bool :=
  e.rest.foldl (fun v r => r.1.apply v r.2.value) e.first.value

inductive Says : List CStr → Bool → Prop
  | plain (e : Expr) (h : ¬negated e.args) : Says e.args e.value
  | neg (e : Expr) : Says (bang::e.args) (!e.value)

/-- The claim about one vector of arguments; `argv` begins with the name of the command. -/
def Agrees (argv : List CStr) : Prop := doTest argv = 0 ↔ Says argv.tail true

/-! ## Words that are no expression -/

inductive Item
  | conn (c : Conn)
  | primary (p : Primary)

/-- `none` when a primary is not complete or its operator is unknown. -/
@[grind]
def items : List CStr → Option (List Item)
  | [] => some []
  | a::ap =>
    if a = dashO then (items ap).map (Item.conn .or::·)
    else if a = dashA then (items ap).map (Item.conn .and::·)
    else if a = dashZ then
      match ap with
      | [] => none
      | s::ap => (items ap).map (Item.primary (.empty s)::·)
    else if a = dashN then
      match ap with
      | [] => none
      | s::ap => (items ap).map (Item.primary (.nonempty s)::·)
    else if ha : a ∉ operators then
      match ap with
      | op::b::ap =>
        match Op.of op with
        | none => none
        | some o => (items ap).map (Item.primary (.compare a ha o b)::·)
      | _ => none
    else none

/-- The primaries with the connective last in front of each, if there is one. -/
def joined : Option Conn → List Item → List (Option Conn × Primary)
  | _, [] => []
  | _, .conn c::its => joined (some c) its
  | c, .primary p::its => (c, p)::joined none its

/-- The value that a primary gives whatever is on its left. -/
def decides (r : Option Conn × Primary) : Option Bool :=
  match r.1 with
  | none => some r.2.value
  | some .or => if r.2.value then some true else none
  | some .and => if r.2.value then none else some false

/-- The last primary that decides, if any does. -/
def lastDecision (its : List Item) : Option Bool := ((joined none its).filterMap decides).getLast?

/-- Words that are no expression: with a `!` in front they are incomplete or their last decision
is not false; without one they are complete and it is false. -/
def Rejected (args : List CStr) : Prop :=
  match items (operands args) with
  | none => negated args
  | some its => lastDecision its = some false ↔ ¬negated args

def Meets (args : List CStr) : Prop :=
  args.length < 2 ∨ (∃ e : Expr, operands args = e.args) ∨ Rejected args

/-! ## The loop reads items -/

/-- What the flags keep of the connective read last. -/
def Flags.Pending (f : Flags) : Option Conn → Prop
  | none => f.lastCmp = -1
  | some .or => f.lastCmp = 0 ∧ f.lastExpr = f.expr
  | some .and => f.lastCmp = 1 ∧ f.lastExpr = f.expr

theorem loop_dashO (ap : List CStr) (f : Flags) :
    loop (dashO::ap) f = loop ap ⟨f.expr, f.expr, 0⟩ := by
  rw [loop.eq_def]
  dsimp only
  rw [if_pos rfl]

theorem loop_dashA (ap : List CStr) (f : Flags) :
    loop (dashA::ap) f = loop ap ⟨f.expr, f.expr, 1⟩ := by
  rw [loop.eq_def]
  dsimp only
  rw [if_neg (by decide), if_pos rfl]

theorem loop_dashZ (s : CStr) (ap : List CStr) (f : Flags) :
    loop (dashZ::s::ap) f = loop ap (f.join (Primary.empty s).value) := by
  rw [loop, if_neg (by decide), if_neg (by decide), if_pos (by decide)]
  rfl

theorem loop_dashN (s : CStr) (ap : List CStr) (f : Flags) :
    loop (dashN::s::ap) f = loop ap (f.join (Primary.nonempty s).value) := by
  rw [loop, if_neg (by decide), if_neg (by decide), if_pos (by decide)]
  rfl

theorem not_operator {a : CStr} (ha : a ∉ operators) :
    a ≠ dashO ∧ a ≠ dashA ∧ a ≠ dashZ ∧ a ≠ dashN := by
  simpa only [operators, List.mem_cons, List.not_mem_nil, or_false, not_or] using ha

theorem loop_compare {a : CStr} (ha : a ∉ operators) {op : CStr} {o : Op} (ho : Op.of op = some o)
    (b : CStr) (ap : List CStr) (f : Flags) :
    loop (a::op::b::ap) f = loop ap (f.join (o.holds a b)) := by
  obtain ⟨h1, h2, h3, h4⟩ := not_operator ha
  rw [loop, if_neg h1, if_neg h2, if_neg (by simp [h3, h4])]
  dsimp only
  rw [ho]

/-- What the loop makes of items with the value `v` on their left. -/
def outcome (v : Bool) (c : Option Conn) (its : List Item) : Bool :=
  ((joined c its).filterMap decides).getLast?.getD v

theorem outcome_conn (v : Bool) (c : Option Conn) (d : Conn) (its : List Item) :
    outcome v c (.conn d::its) = outcome v (some d) its := rfl

theorem outcome_primary (v : Bool) (c : Option Conn) (p : Primary) (its : List Item) :
    outcome v c (.primary p::its) = outcome ((decides (c, p)).getD v) none its := by
  unfold outcome
  rw [joined, List.filterMap_cons]
  cases decides (c, p) with
  | none => rfl
  | some w =>
    dsimp only
    rw [List.getLast?_cons]
    rfl

theorem toInt_ne (b : Bool) : decide (toInt b ≠ 0) = b := by
  cases b <;> decide

theorem join_outcome {f : Flags} {c : Option Conn} (hf : f.Pending c) (p : Primary) :
    decide ((f.join p.value).expr ≠ 0) = (decides (c, p)).getD (f.expr ≠ 0) := by
  unfold Flags.join
  dsimp only
  cases c with
  | none =>
    rw [show f.lastCmp = -1 from hf, if_neg (by decide), if_neg (by decide), toInt_ne]
    rfl
  | some d =>
    cases d with
    | or =>
      rw [hf.1, hf.2, if_pos rfl, toInt_ne]
      cases hv : p.value with
      | false => simp [decides, hv]
      | true => simp [decides, hv]
    | and =>
      rw [hf.1, hf.2, if_neg (by decide), if_pos rfl, toInt_ne]
      cases hv : p.value with
      | false => simp [decides, hv]
      | true => simp [decides, hv]

/-- By induction on the words, with the flags and the connective that they keep. -/
theorem loop_items (args : List CStr) (its : List Item) (h : items args = some its) (f : Flags)
    (c : Option Conn) (hf : f.Pending c) :
    decide (loop args f ≠ 0) = outcome (f.expr ≠ 0) c its := by
  induction args using items.induct generalizing its f c with
  | case1 =>
    cases h
    cases c <;> rfl
  | case2 ap ih =>
    rw [items.eq_def] at h
    dsimp only at h
    rw [if_pos rfl] at h
    obtain ⟨its, hits, rfl⟩ := Option.map_eq_some_iff.mp h
    rw [loop_dashO, outcome_conn]
    exact ih its hits _ (some .or) ⟨rfl, rfl⟩
  | case3 ap h1 ih =>
    rw [items.eq_def] at h
    dsimp only at h
    rw [if_neg h1, if_pos rfl] at h
    obtain ⟨its, hits, rfl⟩ := Option.map_eq_some_iff.mp h
    rw [loop_dashA, outcome_conn]
    exact ih its hits _ (some .and) ⟨rfl, rfl⟩
  | case4 h1 h2 =>
    rw [items, if_neg h1, if_neg h2, if_pos rfl] at h
    cases h
  | case5 s ap h1 h2 ih =>
    rw [items, if_neg h1, if_neg h2, if_pos rfl] at h
    obtain ⟨its, hits, rfl⟩ := Option.map_eq_some_iff.mp h
    rw [loop_dashZ, outcome_primary, ← join_outcome hf]
    exact ih its hits _ none rfl
  | case6 h1 h2 h3 =>
    rw [items, if_neg h1, if_neg h2, if_neg h3, if_pos rfl] at h
    cases h
  | case7 s ap h1 h2 h3 ih =>
    rw [items, if_neg h1, if_neg h2, if_neg h3, if_pos rfl] at h
    obtain ⟨its, hits, rfl⟩ := Option.map_eq_some_iff.mp h
    rw [loop_dashN, outcome_primary, ← join_outcome hf]
    exact ih its hits _ none rfl
  | case8 a h1 h2 h3 h4 ha op b ap ho =>
    rw [items, if_neg h1, if_neg h2, if_neg h3, if_neg h4, dif_pos ha] at h
    dsimp only at h
    rw [ho] at h
    cases h
  | case9 a h1 h2 h3 h4 ha op b ap o ho ih =>
    rw [items, if_neg h1, if_neg h2, if_neg h3, if_neg h4, dif_pos ha] at h
    dsimp only at h
    rw [ho] at h
    obtain ⟨its, hits, rfl⟩ := Option.map_eq_some_iff.mp h
    rw [loop_compare ha ho, outcome_primary, ← join_outcome hf]
    exact ih its hits _ none rfl
  | case10 a ap h1 h2 h3 h4 ha hshort =>
    rw [items.eq_def] at h
    dsimp only at h
    rw [if_neg h1, if_neg h2, if_neg h3, if_neg h4, dif_pos ha] at h
    rcases ap with _ | ⟨op, _ | ⟨b, ap⟩⟩
    · cases h
    · cases h
    · exact (hshort op b ap rfl).elim
  | case11 a ap h1 h2 h3 h4 ha =>
    exact absurd (by simp [operators, h1, h2, h3, h4]) ha

/-- Words that are not complete leave the loop with the value 1. -/
theorem loop_incomplete (args : List CStr) (h : items args = none) (f : Flags) : loop args f = 1 := by
  induction args using items.induct generalizing f with
  | case1 => cases h
  | case2 ap ih =>
    rw [items.eq_def] at h
    dsimp only at h
    rw [if_pos rfl] at h
    rw [loop_dashO]
    exact ih (Option.map_eq_none_iff.mp h) _
  | case3 ap h1 ih =>
    rw [items.eq_def] at h
    dsimp only at h
    rw [if_neg h1, if_pos rfl] at h
    rw [loop_dashA]
    exact ih (Option.map_eq_none_iff.mp h) _
  | case4 => rfl
  | case5 s ap h1 h2 ih =>
    rw [items, if_neg h1, if_neg h2, if_pos rfl] at h
    rw [loop_dashZ]
    exact ih (Option.map_eq_none_iff.mp h) _
  | case6 => rfl
  | case7 s ap h1 h2 h3 ih =>
    rw [items, if_neg h1, if_neg h2, if_neg h3, if_pos rfl] at h
    rw [loop_dashN]
    exact ih (Option.map_eq_none_iff.mp h) _
  | case8 a h1 h2 h3 h4 ha op b ap ho =>
    rw [loop, if_neg h1, if_neg h2, if_neg (by simp [h3, h4])]
    dsimp only
    rw [ho]
  | case9 a h1 h2 h3 h4 ha op b ap o ho ih =>
    rw [items, if_neg h1, if_neg h2, if_neg h3, if_neg h4, dif_pos ha] at h
    dsimp only at h
    rw [ho] at h
    rw [loop_compare ha ho]
    exact ih (Option.map_eq_none_iff.mp h) _
  | case10 a ap h1 h2 h3 h4 ha hshort =>
    rw [loop.eq_def]
    dsimp only
    rw [if_neg h1, if_neg h2, if_neg (by simp [h3, h4])]
    rcases ap with _ | ⟨op, _ | ⟨b, ap⟩⟩
    · rfl
    · rfl
    · exact (hshort op b ap rfl).elim
  | case11 a ap h1 h2 h3 h4 ha =>
    exact absurd (by simp [operators, h1, h2, h3, h4]) ha

/-! ## The items of an expression -/

def Expr.items (e : Expr) : List Item :=
  .primary e.first::e.rest.flatMap (fun r => [.conn r.1, .primary r.2])

theorem of_text (o : Op) : Op.of o.text = some o := by
  cases o <;> decide

theorem items_conn (c : Conn) (ap : List CStr) :
    items (c.text::ap) = (items ap).map (Item.conn c::·) := by
  cases c with
  | or =>
    rw [Conn.text, items.eq_def]
    dsimp only
    rw [if_pos rfl]
  | and =>
    rw [Conn.text, items.eq_def]
    dsimp only
    rw [if_neg (by decide), if_pos rfl]

theorem items_primary (p : Primary) (ap : List CStr) :
    items (p.args ++ ap) = (items ap).map (Item.primary p::·) := by
  cases p with
  | empty s =>
    rw [Primary.args, List.cons_append, items.eq_def]
    dsimp only
    rw [if_neg (by decide), if_neg (by decide), if_pos rfl]
    rfl
  | nonempty s =>
    rw [Primary.args, List.cons_append, items.eq_def]
    dsimp only
    rw [if_neg (by decide), if_neg (by decide), if_neg (by decide), if_pos rfl]
    rfl
  | compare a ha o b =>
    obtain ⟨h1, h2, h3, h4⟩ := not_operator ha
    rw [Primary.args, List.cons_append, items.eq_def]
    dsimp only
    rw [if_neg h1, if_neg h2, if_neg h3, if_neg h4, dif_pos ha]
    dsimp only [List.cons_append]
    rw [of_text]
    rfl

theorem items_rest (rest : List (Conn × Primary)) :
    items (rest.flatMap (fun r => r.1.text::r.2.args)) =
      some (rest.flatMap (fun r => [.conn r.1, .primary r.2])) := by
  induction rest with
  | nil => rfl
  | cons r rest ih =>
    rw [List.flatMap_cons, List.flatMap_cons, List.cons_append, items_conn, items_primary, ih]
    rfl

theorem items_expr (e : Expr) : items e.args = some e.items := by
  rw [Expr.args, items_primary, items_rest]
  rfl

theorem outcome_rest (rest : List (Conn × Primary)) (v : Bool) :
    outcome v none (rest.flatMap (fun r => [.conn r.1, .primary r.2])) =
      rest.foldl (fun v r => r.1.apply v r.2.value) v := by
  induction rest generalizing v with
  | nil => rfl
  | cons r rest ih =>
    have hstep : (decides (some r.1, r.2)).getD v = r.1.apply v r.2.value := by
      obtain ⟨c, p⟩ := r
      cases c with
      | or => cases hv : p.value <;> cases v <;> simp [decides, Conn.apply, hv]
      | and => cases hv : p.value <;> cases v <;> simp [decides, Conn.apply, hv]
    rw [List.flatMap_cons, List.cons_append, List.cons_append, List.nil_append, outcome_conn,
      outcome_primary, hstep, ih]
    rfl

theorem outcome_expr (e : Expr) (v : Bool) : outcome v none e.items = e.value := by
  rw [Expr.items, outcome_primary, outcome_rest]
  rfl

/-! ## What is returned -/

theorem says_iff (args : List CStr) (v : Bool) : Says args v ↔
    ∃ e : Expr, operands args = e.args ∧ v = (if negated args then !e.value else e.value) := by
  constructor
  · rintro (⟨e, h⟩ | e)
    · exact ⟨e, if_neg h, (if_neg h).symm⟩
    · exact ⟨e, if_pos rfl, (if_pos rfl).symm⟩
  · rintro ⟨e, hargs, rfl⟩
    by_cases h : negated args
    · rw [operands, if_pos h] at hargs
      rw [if_pos h]
      obtain ⟨t, rfl⟩ := List.head?_eq_some_iff.mp h
      cases hargs
      exact Says.neg e
    · rw [operands, if_neg h] at hargs
      subst hargs
      rw [if_neg h]
      exact Says.plain e h

theorem toInt_eq_zero (b : Bool) : toInt b = 0 ↔ b = false := by
  cases b <;> decide

theorem doTest_eq_zero (argv : List CStr) (h : 3 ≤ argv.length) : doTest argv = 0 ↔
    (loop (operands argv.tail) ⟨-1, -1, -1⟩ = 0 ↔ negated argv.tail) := by
  unfold doTest
  rw [if_neg (by omega)]
  dsimp only
  generalize loop (operands argv.tail) ⟨-1, -1, -1⟩ = v
  rw [toInt_eq_zero, decide_eq_false_iff_not]
  by_cases hn : negated argv.tail
  · rw [if_pos hn, toInt_eq_zero, decide_eq_false_iff_not, not_not]
    exact ⟨fun hv => ⟨fun _ => hn, fun _ => hv⟩, fun hv => hv.mpr hn⟩
  · rw [if_neg hn]
    exact ⟨fun hv => ⟨fun h => absurd h hv, fun h => absurd h hn⟩, fun hv h => hn (hv.mp h)⟩

/-- From the start, the loop ends with 0 on complete words exactly when their last decision is
false. -/
theorem loop_zero_iff {args : List CStr} {its : List Item} (h : items args = some its) :
    loop args ⟨-1, -1, -1⟩ = 0 ↔ lastDecision its = some false := by
  have hloop := loop_items args its h ⟨-1, -1, -1⟩ none rfl
  have hstart : outcome (decide ((-1 : ℤ) ≠ 0)) none its = (lastDecision its).getD true := rfl
  rw [hstart] at hloop
  rw [← not_iff_not, ← ne_eq, ← decide_eq_true_iff (p := loop args _ ≠ 0), hloop]
  cases lastDecision its with
  | none => simp
  | some v => simp

theorem lastDecision_expr (e : Expr) : lastDecision e.items = some e.value := by
  have htrue := outcome_expr e true
  have hfalse := outcome_expr e false
  unfold outcome at htrue hfalse
  unfold lastDecision
  cases h : ((joined none e.items).filterMap decides).getLast? with
  | none =>
    rw [h] at htrue hfalse
    exact absurd (htrue.trans hfalse.symm) (by decide)
  | some v =>
    rw [h] at htrue
    exact congrArg some htrue

theorem says_short {args : List CStr} (h : args.length < 2) : ¬Says args true := by
  intro hs
  obtain ⟨e, hargs, -⟩ := (says_iff args true).mp hs
  have hlen : (operands args).length ≤ args.length := by
    unfold operands
    split_ifs
    · rw [List.length_tail]
      omega
    · exact le_refl _
  have hfirst : 2 ≤ e.first.args.length := by
    cases e.first with
    | empty s => exact le_refl 2
    | nonempty s => exact le_refl 2
    | compare a ha o b => exact Nat.le_succ 2
  have hall : e.first.args.length ≤ e.args.length := by
    rw [Expr.args, List.length_append]
    omega
  rw [hargs] at hlen
  omega

theorem test_agrees_iff (argv : List CStr) : Agrees argv ↔ Meets argv.tail := by
  unfold Agrees Meets
  by_cases hlen : argv.tail.length < 2
  · have hshort : argv.length < 3 := by
      rw [List.length_tail] at hlen
      omega
    have hret : doTest argv = 1 := if_pos hshort
    rw [hret]
    exact ⟨fun _ => Or.inl hlen, fun _ => ⟨fun h => absurd h (by decide),
      fun h => absurd h (says_short hlen)⟩⟩
  · have hlong : 3 ≤ argv.length := by
      rw [List.length_tail] at hlen
      omega
    rw [doTest_eq_zero argv hlong, or_iff_right hlen]
    by_cases hexpr : ∃ e : Expr, operands argv.tail = e.args
    · refine ⟨fun _ => Or.inl hexpr, fun _ => ?_⟩
      obtain ⟨e, he⟩ := hexpr
      have hitems : items (operands argv.tail) = some e.items := he ▸ items_expr e
      rw [loop_zero_iff hitems, lastDecision_expr, says_iff]
      have hvalue : ∀ e' : Expr, operands argv.tail = e'.args → e'.value = e.value := by
        intro e' he'
        have heq : e'.items = e.items :=
          Option.some.inj ((items_expr e').symm.trans ((he'.symm.trans he) ▸ items_expr e))
        rw [← outcome_expr e' true, heq, outcome_expr]
      constructor
      · intro h
        refine ⟨e, he, ?_⟩
        by_cases hn : negated argv.tail
        · rw [if_pos hn, Option.some.inj (h.mpr hn)]
          rfl
        · rw [if_neg hn]
          cases hv : e.value with
          | false => exact absurd (h.mp (congrArg some hv)) hn
          | true => rfl
      · rintro ⟨e', he', hv⟩
        rw [hvalue e' he'] at hv
        by_cases hn : negated argv.tail
        · rw [if_pos hn] at hv
          exact ⟨fun _ => hn, fun _ => congrArg some (by simpa using hv.symm)⟩
        · rw [if_neg hn] at hv
          rw [← hv]
          exact ⟨fun h => Bool.noConfusion (Option.some.inj h), fun h => absurd h hn⟩
    · -- nothing is said, so the code has to return 1
      rw [or_iff_right hexpr]
      have hno : ¬Says argv.tail true := by
        intro hs
        obtain ⟨e, he, -⟩ := (says_iff _ _).mp hs
        exact hexpr ⟨e, he⟩
      rw [iff_false_right hno, Rejected]
      cases hitems : items (operands argv.tail) with
      | none =>
        dsimp only
        rw [loop_incomplete _ hitems]
        constructor
        · intro h
          by_contra hn
          exact h ⟨fun h => absurd h (by decide), fun h => absurd h hn⟩
        · intro hn h
          exact absurd (h.mpr hn) (by decide)
      | some its =>
        dsimp only
        rw [loop_zero_iff hitems]
        exact not_iff.trans (not_iff_comm.trans iff_comm)

/-- An unset variable has left nothing on the right of the operator. -/
theorem operand_missing : ¬∀ argv, Agrees argv := by
  intro h
  have hzero : doTest [[116], [97], [61]] = 0 := by decide
  obtain ⟨e, he, -⟩ := (says_iff _ _).mp ((h [[116], [97], [61]]).mp hzero)
  have hnone : items [[97], [61]] = none := by decide
  have hargs : [[97], [61]] = e.args := he
  rw [hargs, items_expr] at hnone
  exact Option.some_ne_none _ hnone

end UBoot.CmdTest
