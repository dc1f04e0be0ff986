import StackC.Proofs.Reading.Locals
import StackC.Proofs.Token.Mentions
import StackC.Proofs.Tree.Operators

/-! A parse finds the names that the tokens mention: in their order, each with the local that it
stands for. -/
namespace StackC.Grammar
open Token (Mention Context mentionsFrom enter)

/-- The names of locals, and where they appear first. -/
def table (locals : List Local) : List (Bytes × Int) := locals.map fun v => (v.name, v.pos)

def nameAt? (locals : List Local) (i : Int) : Option Bytes := (getLocal? locals i).map Local.name

section Table

variable {locals locals' : List Local}

theorem names_table : (table locals).map Prod.fst = locals.map Local.name := by
  simp [table]

theorem table_retype (i : Nat) (type : Ty) : table (retype locals i type) = table locals := by
  apply List.ext_getElem?
  intro j
  by_cases hj : i = j
  · cases h : locals[j]? <;> simp [table, retype, hj, h]
  · simp [table, retype, hj]

@[simp] theorem table_inferDeref (fresh : Option Nat) (e : Expr) :
    table (inferDeref locals fresh e) = table locals := by
  obtain ⟨i, q, p, -, -, he⟩ | ⟨-, he⟩ := inferDeref_cases locals fresh e
  · rw [he, table_retype]
  · rw [he]

@[simp] theorem table_inferAssign (fresh : Option Nat) (l r : Expr) :
    table (inferAssign locals fresh l r) = table locals := by
  obtain ⟨i, p, type, -, -, -, -, he⟩ | ⟨-, he⟩ := inferAssign_cases locals fresh l r
  · rw [he, table_retype]
  · rw [he]

/-- A new local enters the table. -/
theorem table_append {t : Token} (h : findLocal? locals t.lit = none) (type : Ty) :
    table (locals ++ [⟨t.lit, type, t.pos⟩]) = enter (table locals) t := by
  rw [Token.enter_of_not_mem (names_table ▸ Derivation.findLocal?_eq_none.mp h)]
  simp [table]

private theorem table_of_resolve {t : Token} {i : Nat} {fresh : Option Nat}
    (h : resolve locals t = .ok (i, locals', fresh)) : table locals' = enter (table locals) t := by
  obtain ⟨hf, rfl, -⟩ | ⟨hf, -, -, rfl, -⟩ := resolve_cases h
  · have hm : t.lit ∈ locals'.map Local.name := by
      by_contra hn
      rw [Derivation.findLocal?_eq_none.mpr hn] at hf
      cases hf
    rw [Token.enter_of_mem (names_table ▸ hm)]
  · exact table_append hf .int

theorem nameAt?_eq (i : Nat) : nameAt? locals i = ((table locals).map Prod.fst)[i]? := by
  simp [names_table, nameAt?, getLocal?]

theorem nameAt?_of_prefix {i : Int} {name : Bytes} (hl : table locals <+: table locals')
    (h : nameAt? locals i = some name) : nameAt? locals' i = some name := by
  match i with
  | .negSucc _ => cases h
  | .ofNat n =>
    change nameAt? locals n = _ at h
    change nameAt? locals' n = _
    rw [nameAt?_eq] at h ⊢
    obtain ⟨more, hm⟩ := hl.map Prod.fst
    rw [← hm, List.getElem?_append_left (List.getElem?_eq_some_iff.mp h).1, h]

end Table

/-- These tokens are among those between two places. -/
def Within (ahead ts ahead' : List Token) : Prop := ∃ w, ahead = w ++ ahead' ∧ ts ⊆ w

theorem Within.trans {a b c ts us : List Token} (h₁ : Within a ts b) (h₂ : Within b us c) :
    Within a (ts ++ us) c := by
  obtain ⟨v, rfl, hv⟩ := h₁
  obtain ⟨w, rfl, hw⟩ := h₂
  refine ⟨v ++ w, (List.append_assoc v w c).symm, List.append_subset.mpr ⟨?_, ?_⟩⟩
  · exact List.subset_append_of_subset_left w hv
  · exact List.subset_append_of_subset_right v hw

theorem Within.one (t : Token) (rest : List Token) : Within (t :: rest) [] rest :=
  ⟨[t], rfl, List.nil_subset _⟩

/-- The mention of a name that is used. -/
def used (t : Token) : Mention := ⟨t, none⟩

/-- Between two places these names are used and no others mentioned. The contexts of both are told
from any calm one. -/
structure Crosses (a : Context → Context) (ahead ts : List Token) (b : Context → Context)
    (ahead' : List Token) : Prop where
  within : Within ahead ts ahead'
  mentions : ∀ depth c, c.isCalm →
    mentionsFrom depth (a c) ahead = ts.map used ++ mentionsFrom depth (b c) ahead'

namespace Crosses

variable {a b c : Context → Context} {ahead ahead₁ ahead₂ rest ts us : List Token} {t : Token}

theorem refl (a : Context → Context) (ahead : List Token) : Crosses a ahead [] a ahead :=
  ⟨⟨[], rfl, List.nil_subset _⟩, fun _ _ _ => rfl⟩

theorem trans (h₁ : Crosses a ahead ts b ahead₁) (h₂ : Crosses b ahead₁ us c ahead₂) :
    Crosses a ahead (ts ++ us) c ahead₂ := by
  refine ⟨h₁.within.trans h₂.within, fun depth x hx => ?_⟩
  rw [h₁.mentions depth x hx, h₂.mentions depth x hx, List.map_append, List.append_assoc]

/-- The same inside parentheses. -/
theorem deeper (h : Crosses id ahead ts id ahead₁) :
    Crosses Context.deeper ahead ts Context.deeper ahead₁ := by
  refine ⟨h.within, fun depth x hx => ?_⟩
  have hd : x.deeper.isCalm := by cases x <;> simp_all [Context.deeper, Context.isCalm]
  exact h.mentions depth x.deeper hd

theorem quiet (h : t.Quiet) (hk : t.kind ≠ .ident) : Crosses id (t :: rest) [] id rest :=
  ⟨.one t rest, fun _ _ hx => h.mentionsFrom hx hk⟩

theorem opens (h : t.is (ascii "(")) : Crosses id (t :: rest) [] Context.deeper rest :=
  ⟨.one t rest, fun _ _ hx => Token.mentionsFrom_opens h hx⟩

theorem closes (h : t.is (ascii ")")) : Crosses Context.deeper (t :: rest) [] id rest :=
  ⟨.one t rest, fun _ _ hx => Token.mentionsFrom_closes h hx⟩

theorem comma (h : t.is (ascii ",")) :
    Crosses Context.deeper (t :: rest) [] Context.deeper rest :=
  ⟨.one t rest, fun _ _ hx => Token.mentionsFrom_comma h hx⟩

theorem name (h : t.kind = .ident) (hr : rest.head?.any (·.is (ascii "(")) = false) :
    Crosses id (t :: rest) [t] id rest := by
  refine ⟨⟨[t], rfl, List.Subset.refl _⟩, fun depth x hx => ?_⟩
  exact (Token.mentionsFrom_ident h hx).trans (by rw [hr]; rfl)

theorem callee (h : t.kind = .ident) (hr : rest.head?.any (·.is (ascii "("))) :
    Crosses id (t :: rest) [] id rest := by
  refine ⟨.one t rest, fun depth x hx => ?_⟩
  exact (Token.mentionsFrom_ident h hx).trans (by rw [hr]; rfl)

/-- A token before what is read. -/
theorem after (h₁ : Crosses a (t :: rest) [] b rest) (h₂ : Crosses b rest ts c ahead₁) :
    Crosses a (t :: rest) ts c ahead₁ := h₁.trans h₂

/-- A token behind what is read. -/
theorem before (h₁ : Crosses a ahead ts b (t :: rest)) (h₂ : Crosses b (t :: rest) [] c rest) :
    Crosses a ahead ts c rest := by
  have h := h₁.trans h₂
  rwa [List.append_nil] at h

end Crosses

/-- What the tokens of a form stand in, from the context of its expression. -/
def Form.start : Form → Context → Context
  | .arguments | .argumentList => Context.deeper
  | _ => id

/-- What the token behind a form stands in. -/
def Form.finish : Form → Context → Context
  | .argumentList => Context.deeper
  | _ => id

/-- A variable stands where one of these tokens does, and its local has the name that it spells. -/
def Spells (ts : List Token) (locals : List Local) (p i : Int) : Prop :=
  ∃ t ∈ ts, t.pos = p ∧ nameAt? locals i = some t.lit

namespace Spells

variable {ts us : List Token} {locals locals' : List Local} {p i : Int}

/-- More names come behind. -/
theorem left (h : Spells ts locals p i) (hs : table locals' = us.foldl enter (table locals)) :
    Spells (ts ++ us) locals' p i := by
  obtain ⟨t, ht, hp, hn⟩ := h
  refine ⟨t, List.mem_append_left us ht, hp, nameAt?_of_prefix ?_ hn⟩
  rw [hs]
  exact Token.prefix_foldl_enter _ _

theorem right (h : Spells us locals p i) : Spells (ts ++ us) locals p i := by
  obtain ⟨t, ht, hp, hn⟩ := h
  exact ⟨t, List.mem_append_right ts ht, hp, hn⟩

theorem withTable (h : Spells ts locals p i) (hs : table locals' = table locals) :
    Spells ts locals' p i := by
  obtain ⟨t, ht, hp, hn⟩ := h
  exact ⟨t, ht, hp, nameAt?_of_prefix (hs ▸ List.prefix_rfl) hn⟩

end Spells

/-- What reading expressions does with the names that are mentioned. Some nodes are given to it. -/
structure Cites (a b : Context → Context) (given : List Expr) (s : State) (xs : List Expr)
    (ts : List Token) (s' : State) : Prop where
  crosses : Crosses a s.ahead ts b s'.ahead
  enters : table s'.locals = ts.foldl enter (table s.locals)
  spells : ∀ p i, .var p i ∈ Expr.allNodes xs → .var p i ∈ given ∨ Spells ts s'.locals p i

section Operators

variable {t : Token} {node : Int → Expr → Expr} {pos p i : Int} {x l r : Expr}

theorem unary?_cases (h : unary? t = some node) : node = .neg ∨ node = .addr ∨ node = .deref := by
  unfold unary? at h
  repeat' split at h
  all_goals cases h
  all_goals simp

/-- Tokens of operators mention nothing. -/
theorem quiet_of_unary? (h : unary? t = some node) : t.Quiet ∧ t.kind ≠ .ident := by
  have of_is {lit : Bytes} (ht : t.is lit) (hl : lit ∉ Token.contextMarks) :
      t.Quiet ∧ t.kind ≠ .ident := ⟨Token.quiet_of_is ht hl, Token.kind_ne_ident ht⟩
  unfold unary? at h
  repeat' split at h
  all_goals first | exact of_is ‹_› (by decide) | cases h

private theorem quiet_of_operator? {n : Nat} {op : BinaryOp × Bool} (h : operator? n t = some op) :
    t.Quiet ∧ t.kind ≠ .ident := by
  have of_is {lit : Bytes} (ht : t.is lit) (hl : lit ∉ Token.contextMarks) :
      t.Quiet ∧ t.kind ≠ .ident := ⟨Token.quiet_of_is ht hl, Token.kind_ne_ident ht⟩
  match n with
  | 0 | 1 | 2 | 3 =>
    simp only [operator?] at h
    repeat' split at h
    all_goals first | exact of_is ‹_› (by decide) | cases h
  | n + 4 => cases h

private theorem mem_nodes_unary? (h : unary? t = some node) :
    .var p i ∈ (node pos x).nodes ↔ .var p i ∈ x.nodes := by
  obtain rfl | rfl | rfl := unary?_cases h <;> simp [Expr.nodes]

private theorem mem_nodes_operation {swap : Bool} {op : BinaryOp} :
    .var p i ∈ (operation swap pos op l r).nodes ↔ .var p i ∈ l.nodes ∨ .var p i ∈ r.nodes := by
  cases swap <;> simp [operation, Expr.nodes, or_comm]

end Operators

theorem foldl_enter_append {s s₁ s₂ : State} {ts us : List Token}
    (h₁ : table s₁.locals = ts.foldl enter (table s.locals))
    (h₂ : table s₂.locals = us.foldl enter (table s₁.locals)) :
    table s₂.locals = (ts ++ us).foldl enter (table s.locals) := by
  rw [h₂, h₁, List.foldl_append]

namespace Cites

variable {a b c : Context → Context} {given : List Expr} {s s₁ s₂ : State} {x : Expr}
variable {xs ys : List Expr} {ts us : List Token}

/-- A form that builds on nothing spells all its variables. -/
theorem single (h : Cites a b [] s [x] ts s₁) {p i : Int} (hm : .var p i ∈ x.nodes) :
    Spells ts s₁.locals p i :=
  (h.spells p i (by rwa [Expr.allNodes_singleton])).resolve_left List.not_mem_nil

/-- Variables of one form before another. -/
theorem spells_left (h : Cites a b [] s [x] ts s₁)
    (h₂ : table s₂.locals = us.foldl enter (table s₁.locals)) {p i : Int}
    (hm : .var p i ∈ x.nodes) : Spells (ts ++ us) s₂.locals p i :=
  (h.single hm).left h₂

end Cites

/-- An expression enters the names that its tokens mention, and its variables stand for them. -/
theorem exists_cites_of_reads {f : Form} {s s' : State} {xs : List Expr} (h : Reads f s xs s') :
    ∃ ts, Cites f.start f.finish f.given s xs ts s' := by
  induction h with
  | @paren s s₁ t t₁ x opens inner closes ih =>
    obtain ⟨ts, ih⟩ := ih
    have hc := (Crosses.deeper ih.crosses).before (.closes closes)
    exact ⟨ts, Crosses.after (.opens opens) hc, ih.enters, ih.spells⟩
  | @call s s₁ t t₁ args isName opens inner ih =>
    obtain ⟨ts, ih⟩ := ih
    have hname : Crosses id (t :: t₁ :: s.ahead) [] id (t₁ :: s.ahead) := .callee isName opens
    have hc := hname.after (.after (.opens opens) ih.crosses)
    refine ⟨ts, hc, ih.enters, fun p i hm => ?_⟩
    rw [Expr.allNodes_singleton, Expr.nodes, List.mem_cons] at hm
    exact ih.spells p i (hm.resolve_left (by simp))
  | @name s t i locals fresh isName noCall known =>
    refine ⟨[t], .name isName noCall, table_of_resolve known, fun p j hm => .inr ?_⟩
    rw [Expr.allNodes_singleton, Expr.nodes, List.mem_singleton] at hm
    cases hm
    have hn : nameAt? locals i = some t.lit := by
      rw [nameAt?_eq, names_table, getElem?_of_resolve known]
    exact ⟨t, List.mem_singleton_self t, rfl, hn⟩
  | @number s t isNumber =>
    have hk : t.kind ≠ .ident := by simp [isNumber]
    refine ⟨[], .quiet (Token.quiet_of_num isNumber) hk, rfl, fun p i hm => ?_⟩
    rw [Expr.allNodes_singleton, Expr.nodes, List.mem_singleton] at hm
    cases hm
  | noArguments closes => exact ⟨[], .closes closes, rfl, fun p i hm => absurd hm List.not_mem_nil⟩
  | arguments more inner closes ih =>
    obtain ⟨ts, ih⟩ := ih
    exact ⟨ts, ih.crosses.before (.closes closes), ih.enters, ih.spells⟩
  | lastArgument only last ih =>
    obtain ⟨ts, ih⟩ := ih
    exact ⟨ts, ih.crosses.deeper, ih.enters, ih.spells⟩
  | @moreArguments s s₁ s₂ t x xs first comma others ih₁ ih₂ =>
    obtain ⟨ts, ih₁⟩ := ih₁
    obtain ⟨us, ih₂⟩ := ih₂
    have hc := ((Crosses.deeper ih₁.crosses).before (.comma comma)).trans ih₂.crosses
    refine ⟨ts ++ us, hc, foldl_enter_append ih₁.enters ih₂.enters, fun p i hm => .inr ?_⟩
    rw [Expr.allNodes, List.mem_append] at hm
    rcases hm with hm | hm
    · exact ih₁.spells_left ih₂.enters hm
    · exact .right ((ih₂.spells p i hm).resolve_left List.not_mem_nil)
  | plus isPlus operand ih =>
    obtain ⟨ts, ih⟩ := ih
    have hq := Token.quiet_of_is isPlus (by decide)
    exact ⟨ts, .after (.quiet hq (Token.kind_ne_ident isPlus)) ih.crosses, ih.enters, ih.spells⟩
  | @unary s s₁ t x node noPlus isOp operand ih =>
    obtain ⟨ts, ih⟩ := ih
    obtain ⟨hq, hk⟩ := quiet_of_unary? isOp
    refine ⟨ts, .after (.quiet hq hk) ih.crosses, (table_inferDeref _ _).trans ih.enters,
      fun p i hm => ?_⟩
    rw [Expr.allNodes_singleton, mem_nodes_unary? isOp] at hm
    exact .inr ((ih.single hm).withTable (table_inferDeref _ _))
  | operand noUnary inner ih => exact ih
  | tightest inner ih => exact ih
  | level left rest ih₁ ih₂ =>
    obtain ⟨ts, ih₁⟩ := ih₁
    obtain ⟨us, ih₂⟩ := ih₂
    refine ⟨ts ++ us, ih₁.crosses.trans ih₂.crosses, foldl_enter_append ih₁.enters ih₂.enters,
      fun p i hm => .inr ?_⟩
    -- The chain builds on the left operand, whose variables are spelled before the chain begins.
    rcases ih₂.spells p i hm with hl | hx
    · exact ih₁.spells_left ih₂.enters hl
    · exact hx.right
  | @endChain s n l noOperator =>
    refine ⟨[], .refl _ _, rfl, fun p i hm => .inl ?_⟩
    rwa [Expr.allNodes_singleton] at hm
  | @chain s s₁ s₂ t n op swap l r x isOp right rest ih₁ ih₂ =>
    obtain ⟨ts, ih₁⟩ := ih₁
    obtain ⟨us, ih₂⟩ := ih₂
    obtain ⟨hq, hk⟩ := quiet_of_operator? isOp
    refine ⟨ts ++ us, .after (.quiet hq hk) (ih₁.crosses.trans ih₂.crosses),
      foldl_enter_append ih₁.enters ih₂.enters, fun p i hm => ?_⟩
    rcases ih₂.spells p i hm with ho | hx
    · exact (mem_nodes_operation.mp ho).imp_right (ih₁.spells_left ih₂.enters)
    · exact .inr hx.right
  | value inner noAssign ih => exact ih
  | @assign s s₁ s₂ t l r left eq right ih₁ ih₂ =>
    obtain ⟨ts, ih₁⟩ := ih₁
    obtain ⟨us, ih₂⟩ := ih₂
    have hq := Token.quiet_of_is eq (by decide)
    have hc := (Crosses.before ih₁.crosses (.quiet hq (Token.kind_ne_ident eq))).trans ih₂.crosses
    have he := foldl_enter_append ih₁.enters ih₂.enters
    refine ⟨ts ++ us, hc, (table_inferAssign _ _ _).trans he, fun p i hm => .inr ?_⟩
    rw [Expr.allNodes_singleton, Expr.nodes, List.mem_cons, List.mem_append] at hm
    have hs : Spells (ts ++ us) s₂.locals p i := by
      rcases hm with hm | hm | hm
      · cases hm
      · exact ih₁.spells_left ih₂.enters hm
      · exact (ih₂.single hm).right
    exact hs.withTable (table_inferAssign _ _ _)

/-- Between two places these names are mentioned, whatever blocks they are in. -/
structure Covers (a : Context) (ahead : List Token) (o : List Mention) (b : Context)
    (ahead' : List Token) : Prop where
  within : Within ahead (o.map Mention.token) ahead'
  mentions : ∀ depth, mentionsFrom depth a ahead = o ++ mentionsFrom depth b ahead'

namespace Covers

variable {a b c : Context} {ahead ahead₁ ahead₂ rest : List Token} {t : Token}
variable {o o' : List Mention} {lit : Bytes}

theorem refl (a : Context) (ahead : List Token) : Covers a ahead [] a ahead :=
  ⟨⟨[], rfl, List.nil_subset _⟩, fun _ => rfl⟩

theorem trans (h₁ : Covers a ahead o b ahead₁) (h₂ : Covers b ahead₁ o' c ahead₂) :
    Covers a ahead (o ++ o') c ahead₂ := by
  refine ⟨?_, fun depth => ?_⟩
  · rw [List.map_append]
    exact h₁.within.trans h₂.within
  · rw [h₁.mentions depth, h₂.mentions depth, List.append_assoc]

/-- A token before what is read. -/
theorem after (h₁ : Covers a (t :: rest) [] b rest) (h₂ : Covers b rest o c ahead₁) :
    Covers a (t :: rest) o c ahead₁ := h₁.trans h₂

/-- A token behind what is read. -/
theorem before (h₁ : Covers a ahead o b (t :: rest)) (h₂ : Covers b (t :: rest) [] c rest) :
    Covers a ahead o c rest := by
  have h := h₁.trans h₂
  rwa [List.append_nil] at h

/-- A token that only moves on to another context. -/
theorem move (h : t.is lit) (hl : lit ≠ ascii "\x7b" ∧ lit ≠ ascii "\x7d")
    (hn : a.next t = b) : Covers a (t :: rest) [] b rest :=
  ⟨.one t rest, fun _ => hn ▸ Token.mentionsFrom_step h hl⟩

/-- A token of a statement leaves no declaration begun. -/
theorem step (h : t.is lit)
    (hl : lit ∉ [ascii "int", ascii "\x7b", ascii "\x7d"]) :
    Covers .outside (t :: rest) [] .outside rest := by
  simp only [List.mem_cons, List.not_mem_nil, or_false, not_or] at hl
  have hi : t.is (ascii "int") = false := Token.is_eq_false_of_is h hl.1
  exact move h hl.2 (by simp [Context.next, hi])

theorem begins (h : t.is (ascii "int")) : Covers .outside (t :: rest) [] (.declarator 0) rest :=
  move h (by decide) (if_pos h)

/-- The name of a declarator behind its stars. -/
theorem declared {stars : List Token} (hs : ∀ t ∈ stars, t.is (ascii "*")) (h : t.kind = .ident)
    (n : Nat) : Covers (.declarator n) (stars ++ t :: rest) [⟨t, some (n + stars.length)⟩]
      (.value 0) rest := by
  induction stars generalizing n with
  | nil =>
    have hq := Token.quiet_of_ident h
    refine ⟨⟨[t], rfl, List.Subset.refl _⟩, fun depth => ?_⟩
    rw [List.nil_append, Token.mentionsFrom_cons (hq _ (by decide)) (hq _ (by decide))]
    simp [Context.mention?, Context.next, h, Token.is_eq_false_of_ident h]
  | cons u stars ih =>
    rw [List.forall_mem_cons] at hs
    have hu : Covers (.declarator n) (u :: (stars ++ t :: rest)) [] (.declarator (n + 1))
        (stars ++ t :: rest) := move hs.1 (by decide) (if_pos hs.1)
    have hn : n + (u :: stars).length = n + 1 + stars.length := by
      rw [List.length_cons]
      omega
    rw [hn]
    exact hu.after (ih hs.2 (n + 1))

theorem ends (h : t.is (ascii ";")) : Covers (.value 0) (t :: rest) [] .outside rest := by
  have ho : t.is (ascii "(") = false := Token.is_eq_false_of_is h (by decide)
  have hc : t.is (ascii ")") = false := Token.is_eq_false_of_is h (by decide)
  have hm : t.is (ascii ",") = false := Token.is_eq_false_of_is h (by decide)
  exact move h (by decide) (by simp [Context.next, h, ho, hc, hm])

theorem comma (h : t.is (ascii ",")) : Covers (.value 0) (t :: rest) [] (.declarator 0) rest := by
  have ho : t.is (ascii "(") = false := Token.is_eq_false_of_is h (by decide)
  have hc : t.is (ascii ")") = false := Token.is_eq_false_of_is h (by decide)
  exact move h (by decide) (by simp [Context.next, h, ho, hc])

end Covers

/-- The names that are mentioned enter the table, and the variables of these nodes stand for
them. -/
structure Enters (locals : List Local) (o : List Mention) (locals' : List Local)
    (nodes : List Expr) : Prop where
  enters : table locals' = (o.map Mention.token).foldl enter (table locals)
  spells : ∀ p i, .var p i ∈ nodes → Spells (o.map Mention.token) locals' p i

namespace Enters

variable {l l₁ l₂ : List Local} {o o' : List Mention} {ns ns' : List Expr}

theorem refl (l : List Local) : Enters l [] l [] :=
  ⟨rfl, fun _ _ hm => absurd hm List.not_mem_nil⟩

theorem append (h₁ : Enters l o l₁ ns) (h₂ : Enters l₁ o' l₂ ns') :
    Enters l (o ++ o') l₂ (ns ++ ns') := by
  constructor
  · rw [List.map_append, List.foldl_append, ← h₁.enters, h₂.enters]
  · intro p i hm
    rw [List.map_append]
    rcases List.mem_append.mp hm with hm | hm
    · exact (h₁.spells p i hm).left h₂.enters
    · exact (h₂.spells p i hm).right

/-- A new name and the variable that stands for it. -/
theorem declared {t : Token} (h : findLocal? l t.lit = none) (type : Ty) (n : Nat) :
    Enters l [⟨t, some n⟩] (declare l t.lit type t.pos) [.var t.pos l.length] := by
  refine ⟨table_append h type, fun p i hm => ?_⟩
  rw [List.mem_singleton] at hm
  cases hm
  exact ⟨t, List.mem_singleton_self t, rfl, by simp [nameAt?, getLocal?, declare]⟩

end Enters

/-- What one expression mentions. -/
theorem exists_covers_of_reads {s s' : State} {x : Expr} (h : Reads .assign s [x] s') :
    ∃ ts : List Token, (∀ c : Context, c.isCalm → Covers c s.ahead (ts.map used) c s'.ahead) ∧
      Enters s.locals (ts.map used) s'.locals x.nodes := by
  obtain ⟨ts, hc⟩ := exists_cites_of_reads h
  have hts : (ts.map used).map Mention.token = ts := by
    rw [List.map_map]
    exact List.map_id ts
  refine ⟨ts, fun c hcalm => ⟨?_, fun depth => hc.crosses.mentions depth c hcalm⟩, ?_, ?_⟩
  · rw [hts]
    exact hc.crosses.within
  · rw [hts, hc.enters]
  · intro p i hm
    rw [hts]
    exact hc.single hm

/-- A declarator mentions its name first. -/
theorem exists_covers_of_readsDeclarator {s s' : State} {inits : List Stmt}
    (h : ReadsDeclarator s inits s') :
    ∃ o, Covers (.declarator 0) s.ahead o (.value 0) s'.ahead ∧
      Enters s.locals o s'.locals (Stmt.allNodes inits) := by
  cases h with
  | @bare s stars name areStars isName isNew notScratch noValue =>
    have he := Enters.declared isNew (.stars stars.length) (0 + stars.length)
    exact ⟨_, .declared areStars isName 0, he.enters, fun p i hm => absurd hm List.not_mem_nil⟩
  | @init s _ stars name t x areStars isName isNew notScratch eq value =>
    obtain ⟨ts, hc, he⟩ := exists_covers_of_reads value
    have hq := Token.quiet_of_is eq (by decide)
    have hv : Covers (.value 0) (t :: s.ahead) (ts.map used) (.value 0) s'.ahead :=
      .after (.move eq (by decide) (hq.next rfl)) (hc _ rfl)
    have hn := Enters.declared isNew (.stars stars.length) (0 + stars.length)
    have hall := hn.append he
    refine ⟨_, Covers.trans (.declared areStars isName 0) hv, hall.enters, fun p i hm => ?_⟩
    rw [Stmt.allNodes_singleton, Stmt.nodes, Expr.nodes, List.mem_cons] at hm
    exact hall.spells p i (hm.resolve_left (by simp))

theorem exists_covers_of_readsDeclarators {s s' : State} {inits : List Stmt}
    (h : ReadsDeclarators s inits s') :
    ∃ o, Covers (.declarator 0) s.ahead o .outside s'.ahead ∧
      Enters s.locals o s'.locals (Stmt.allNodes inits) := by
  induction h with
  | last only ends =>
    obtain ⟨o, hc, he⟩ := exists_covers_of_readsDeclarator only
    exact ⟨o, hc.before (.ends ends), he⟩
  | more first comma rest ih =>
    obtain ⟨o, hc, he⟩ := exists_covers_of_readsDeclarator first
    obtain ⟨o', hc', he'⟩ := ih
    rw [Stmt.allNodes_append]
    exact ⟨o ++ o', (hc.before (.comma comma)).trans hc', he.append he'⟩

/-- An expression and a token behind it, in a statement. -/
theorem exists_covers_of_readsPush {s s' : State} {t : Token} {x : Expr} {lit : Bytes}
    (h : Reads .assign s [x] (s'.push t)) (ht : t.is lit)
    (hl : lit ∉ [ascii "int", ascii "\x7b", ascii "\x7d"]) :
    ∃ o, Covers .outside s.ahead o .outside s'.ahead ∧ Enters s.locals o s'.locals x.nodes := by
  obtain ⟨ts, hc, he⟩ := exists_covers_of_reads h
  exact ⟨ts.map used, (hc _ rfl).before (.step ht hl), he⟩

theorem exists_covers_of_readsOptional {close : Bytes} {s s' : State} {x : Expr}
    (h : ReadsOptional close s x s')
    (hl : close ∉ [ascii "int", ascii "\x7b", ascii "\x7d"]) :
    ∃ o, Covers .outside s.ahead o .outside s'.ahead ∧ Enters s.locals o s'.locals x.nodes := by
  cases h with
  | absent closes => exact ⟨[], .step closes hl, .refl _⟩
  | present notYet inner closes => exact exists_covers_of_readsPush inner closes hl

theorem exists_covers_of_readsFirst {s s' : State} {first : Stmt} (h : ReadsFirst s first s') :
    ∃ o, Covers .outside s.ahead o .outside s'.ahead ∧ Enters s.locals o s'.locals first.nodes := by
  cases h with
  | absent ends => exact ⟨[], .step ends (by decide), .refl _⟩
  | present notYet inner ends => exact exists_covers_of_readsPush inner ends (by decide)

/-- What is mentioned up to the brace at the end of a block, which belongs to it. -/
structure CoversBlock (ahead : List Token) (o : List Mention) (ahead' : List Token) : Prop where
  within : Within ahead (o.map Mention.token) ahead'
  outermost : mentionsFrom 0 .outside ahead = o
  mentions : ∀ depth,
    mentionsFrom (depth + 1) .outside ahead = o ++ mentionsFrom depth .outside ahead'

/-- What statements mention. -/
def StmtForm.Covers (ahead : List Token) (o : List Mention) (ahead' : List Token) : StmtForm → Prop
  | .block => CoversBlock ahead o ahead'
  | _ => Grammar.Covers .outside ahead o .outside ahead'

/-- An item before the rest of a block. -/
theorem CoversBlock.after {ahead ahead₁ ahead₂ : List Token} {o o' : List Mention}
    (h₁ : Covers .outside ahead o .outside ahead₁) (h₂ : CoversBlock ahead₁ o' ahead₂) :
    CoversBlock ahead (o ++ o') ahead₂ := by
  refine ⟨?_, ?_, fun depth => ?_⟩
  · rw [List.map_append]
    exact h₁.within.trans h₂.within
  · rw [h₁.mentions 0, h₂.outermost]
  · rw [h₁.mentions (depth + 1), h₂.mentions depth, List.append_assoc]

/-- Statements enter the names that their tokens mention, and their variables stand for them. -/
theorem exists_covers_of_readsStmt {f : StmtForm} {s s' : State} {xs : List Stmt}
    (h : ReadsStmt f s xs s') :
    ∃ o, f.Covers s.ahead o s'.ahead ∧ Enters s.locals o s'.locals (Stmt.allNodes xs) := by
  induction h with
  | ret isReturn value ends =>
    obtain ⟨o, hc, he⟩ := exists_covers_of_readsPush value ends (by decide)
    rw [Stmt.allNodes_singleton]
    exact ⟨o, .after (.step isReturn (by decide)) hc, he⟩
  | cond isIf opens test closes first second ih₁ ih₂ =>
    obtain ⟨o, hc, he⟩ := exists_covers_of_readsPush test closes (by decide)
    obtain ⟨o₁, hc₁, he₁⟩ := ih₁
    obtain ⟨o₂, hc₂, he₂⟩ := ih₂
    rw [Stmt.allNodes_singleton] at he₁ he₂ ⊢
    have hall := hc.trans (Covers.trans hc₁ hc₂)
    exact ⟨_, .after (.step isIf (by decide)) (.after (.step opens (by decide)) hall),
      he.append (he₁.append he₂)⟩
  | loop isFor opens init cond inc inner ih =>
    obtain ⟨o, hc, he⟩ := exists_covers_of_readsFirst init
    obtain ⟨o₁, hc₁, he₁⟩ := exists_covers_of_readsOptional cond (by decide)
    obtain ⟨o₂, hc₂, he₂⟩ := exists_covers_of_readsOptional inc (by decide)
    obtain ⟨o₃, hc₃, he₃⟩ := ih
    rw [Stmt.allNodes_singleton] at he₃ ⊢
    have hall := hc.trans (hc₁.trans (hc₂.trans hc₃))
    exact ⟨_, .after (.step isFor (by decide)) (.after (.step opens (by decide)) hall),
      he.append (he₁.append (he₂.append he₃))⟩
  | whileLoop isWhile opens test closes inner ih =>
    obtain ⟨o, hc, he⟩ := exists_covers_of_readsPush test closes (by decide)
    obtain ⟨o₁, hc₁, he₁⟩ := ih
    rw [Stmt.allNodes_singleton] at he₁ ⊢
    have hall := hc.trans hc₁
    exact ⟨_, .after (.step isWhile (by decide)) (.after (.step opens (by decide)) hall),
      he.append he₁⟩
  | nested opens inner ih =>
    obtain ⟨o, hc, he⟩ := ih
    rw [Stmt.allNodes_singleton]
    refine ⟨o, ⟨(Within.one _ _).trans hc.within, fun depth => ?_⟩, he⟩
    rw [State.push_ahead, Token.mentionsFrom_open opens, hc.mentions]
  | empty ends => exact ⟨[], .step ends (by decide), .refl _⟩
  | expr plain inner ends =>
    obtain ⟨o, hc, he⟩ := exists_covers_of_readsPush inner ends (by decide)
    rw [Stmt.allNodes_singleton]
    exact ⟨o, hc, he⟩
  | noElse noElse => exact ⟨[], .refl _ _, .refl _⟩
  | orElse isElse inner ih =>
    obtain ⟨o, hc, he⟩ := ih
    exact ⟨o, .after (.step isElse (by decide)) hc, he⟩
  | endBlock closes =>
    exact ⟨[], ⟨.one _ _, Token.mentionsFrom_end closes,
      fun _ => Token.mentionsFrom_close closes⟩, .refl _⟩
  | declaration isInt first rest ih =>
    obtain ⟨o, hc, he⟩ := exists_covers_of_readsDeclarators first
    obtain ⟨o₁, hc₁, he₁⟩ := ih
    exact ⟨_, CoversBlock.after (.after (.begins isInt) hc) hc₁, he.append he₁⟩
  | item notEnd noInt first rest ih₁ ih₂ =>
    obtain ⟨o, hc, he⟩ := ih₁
    obtain ⟨o₁, hc₁, he₁⟩ := ih₂
    rw [Stmt.allNodes_singleton] at he
    exact ⟨_, CoversBlock.after hc hc₁, he.append he₁⟩

/-- Among these tokens the body of a function is read as a block behind its brace, with no locals at
first. -/
inductive BodyIn (w : List Token) (f : Function) : Prop
  | intro {before : List Token} {brace : Token} {s s' : State} {stmts : List Stmt}
      (place : w = before ++ brace :: s.ahead) (empty : s.locals = [])
      (reads : ReadsStmt .block s stmts s') (locals : f.locals = s'.locals)
      (body : f.body = some ⟨brace.pos, stmts⟩) : BodyIn w f

theorem BodyIn.mono {v w : List Token} {f : Function} (h : BodyIn v f) (hv : v <:+ w) :
    BodyIn w f := by
  obtain ⟨place, empty, reads, locals, body⟩ := h
  obtain ⟨front, rfl⟩ := hv
  rw [place, ← List.append_assoc]
  exact .intro rfl empty reads locals body

private theorem bodyIn_of_readsFunction {s s' : State} {f : Function} (h : ReadsFunction s f s') :
    BodyIn s.ahead f ∧ s'.ahead <:+ s.ahead := by
  cases h with
  | @intro s _ stars t name opening closing brace stmts isInt areStars isName opens closes begins
      inner =>
    have hw :
        ((((((s.push brace).push closing).push opening).push name).pushAll stars).push t).ahead =
          (t :: (stars ++ [name, opening, closing])) ++ brace :: s.ahead := by
      simp [State.pushAll]
    refine ⟨.intro (s := { s with locals := [] }) hw rfl inner rfl rfl, ?_⟩
    rw [hw]
    exact ((grows_of_readsStmt inner).1.trans (List.suffix_cons _ _)).trans (List.suffix_append _ _)

theorem bodyIn_of_readsFunctions {known : List Function} {s : State} {p : Program} {f : Function}
    (h : ReadsFunctions known s p) (hf : f ∈ p.funcs) : f ∈ known ∨ BodyIn s.ahead f := by
  induction h with
  | done ended => exact .inl hf
  | more first isNew rest ih =>
    obtain ⟨hb, hs⟩ := bodyIn_of_readsFunction first
    rcases ih hf with hk | hr
    · rcases List.mem_append.mp hk with hk | hk
      · exact .inl hk
      · exact .inr (List.mem_singleton.mp hk ▸ hb)
    · exact .inr (hr.mono hs)

theorem bodyIn_of_parse {toks : List Token} {req : Requirements} {p : Program} {f : Function}
    (h : parse toks req = .ok p) (hf : f ∈ p.funcs) : BodyIn (Token.beforeEnd toks) f := by
  rw [parse_eq_ok_iff] at h
  have ha : (initial toks req).ahead = Token.beforeEnd toks := rfl
  have hl : (initial toks req).locals = [] := rfl
  rw [← ha]
  generalize initial toks req = i at h hl
  cases h with
  | @topLevel s _ t stmts opens inner ended =>
    rw [List.mem_singleton.mp hf]
    have hw : (s.push t).ahead = [] ++ t :: s.ahead := rfl
    exact .intro hw hl inner rfl rfl
  | functions notBlock inner =>
    exact (bodyIn_of_readsFunctions inner hf).resolve_left List.not_mem_nil

end StackC.Grammar
