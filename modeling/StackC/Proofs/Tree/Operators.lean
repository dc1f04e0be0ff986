import StackC.Proofs.Tree.Parsed
import StackC.Proofs.Tree.Violations

/-! The flags that a parse sets are those of the comparison operators in the tree. -/
namespace StackC

/-- Some node among these is a binary one with the operator. -/
def Expr.Uses (op : BinaryOp) (xs : List Expr) : Prop := ∃ pos l r, Expr.binary pos op l r ∈ xs

def Program.Uses (p : Program) (op : BinaryOp) : Prop := Expr.Uses op p.nodes

namespace Expr

variable {op : BinaryOp} {x : Expr} {xs ys : List Expr}

theorem Uses.mono (h : Uses op xs) (hs : xs ⊆ ys) : Uses op ys := by
  obtain ⟨pos, l, r, hm⟩ := h
  exact ⟨pos, l, r, hs hm⟩

theorem allNodes_singleton (x : Expr) : allNodes [x] = x.nodes := by
  simp [allNodes]

/-- A binary node has an operator of its own, and those of its operands. -/
theorem uses_operation (swap : Bool) (pos : Int) (op : BinaryOp) (l r : Expr) :
    Uses op (Grammar.operation swap pos op l r).nodes ∧
      l.nodes ⊆ (Grammar.operation swap pos op l r).nodes ∧
      r.nodes ⊆ (Grammar.operation swap pos op l r).nodes := by
  cases swap with
  | false =>
    refine ⟨⟨pos, l, r, ?_⟩, fun y hy => ?_, fun y hy => ?_⟩
    · simp [Grammar.operation, nodes]
    · simp [Grammar.operation, nodes, hy]
    · simp [Grammar.operation, nodes, hy]
  | true =>
    refine ⟨⟨pos, r, l, ?_⟩, fun y hy => ?_, fun y hy => ?_⟩
    · simp [Grammar.operation, nodes]
    · simp [Grammar.operation, nodes, hy]
    · simp [Grammar.operation, nodes, hy]

theorem nodes_unary? {t : Token} {node : Int → Expr → Expr} (h : Grammar.unary? t = some node)
    (pos : Int) (x : Expr) : x.nodes ⊆ (node pos x).nodes := by
  unfold Grammar.unary? at h
  repeat' split at h
  all_goals cases h
  · exact List.subset_cons_self _ _
  · exact List.subset_cons_self _ _
  · exact List.subset_cons_self _ _

/-- Every operator in a proper expression is supported. -/
theorem Proper.supports {count : Nat} {req : Requirements} (h : x.Proper count req)
    (hu : Uses op x.nodes) : req.Supports op := by
  obtain ⟨pos, l, r, hm⟩ := hu
  induction h with
  | num | var => simp [nodes] at hm
  | neg operand ih | addr operand ih | deref operand ih =>
    rw [nodes, List.mem_cons] at hm
    rcases hm with hm | hm
    · cases hm
    · exact ih hm
  | binary supported left right ih₁ ih₂ =>
    rw [nodes, List.mem_cons, List.mem_append] at hm
    rcases hm with hm | hm | hm
    · cases hm
      exact supported
    · exact ih₁ hm
    · exact ih₂ hm
  | assign left right ih₁ ih₂ =>
    rw [nodes, List.mem_cons, List.mem_append] at hm
    rcases hm with hm | hm | hm
    · cases hm
    · exact ih₁ hm
    · exact ih₂ hm
  | @call _ name args isName arguments ih =>
    replace hm : Expr.binary pos op l r ∈ allNodes args := by simpa [nodes] using hm
    clear arguments
    induction args with
    | nil => cases hm
    | cons a args iha =>
      rw [List.forall_mem_cons] at ih
      rcases List.mem_append.mp hm with hm | hm
      · exact ih.1 hm
      · exact iha ih.2 hm

end Expr

namespace Stmt

variable {op : BinaryOp} {x : Stmt}

theorem allNodes_singleton (x : Stmt) : allNodes [x] = x.nodes := by
  simp [allNodes]

theorem allNodes_append (xs ys : List Stmt) : allNodes (xs ++ ys) = allNodes xs ++ allNodes ys := by
  induction xs with
  | nil => rfl
  | cons x xs ih => simp [allNodes, ih]

theorem mem_allNodes {y : Expr} {xs : List Stmt} : y ∈ allNodes xs ↔ ∃ x ∈ xs, y ∈ x.nodes := by
  induction xs with
  | nil => simp [allNodes]
  | cons x xs ih => simp [allNodes, ih]

/-- Every operator in a proper statement is supported. -/
theorem Proper.supports {count : Nat} {req : Requirements} (h : x.Proper count req)
    (hu : Expr.Uses op x.nodes) : req.Supports op := by
  have none (hu : Expr.Uses op []) : req.Supports op := by
    obtain ⟨pos, l, r, hm⟩ := hu
    cases hm
  have optional (y : Expr) (hy : y.isAbsent = false → y.Proper count req) :
      Expr.Uses op y.nodes → req.Supports op :=
    y.absent_or none fun ha => (hy ha).supports
  have optionalStmt (y : Stmt) (hy : y.isAbsent = false → Expr.Uses op y.nodes → req.Supports op) :
      Expr.Uses op y.nodes → req.Supports op :=
    y.absent_or none hy
  induction h with
  | @block pos body inner ih =>
    obtain ⟨pos, l, r, hm⟩ := hu
    obtain ⟨y, hy, hm⟩ := mem_allNodes.mp hm
    exact ih y hy ⟨pos, l, r, hm⟩
  | cond tested first second ih₁ ih₂ =>
    obtain ⟨pos, l, r, hm⟩ := hu
    simp only [nodes, List.mem_append] at hm
    rcases hm with hm | hm | hm
    · exact tested.supports ⟨pos, l, r, hm⟩
    · exact ih₁ ⟨pos, l, r, hm⟩
    · exact optionalStmt _ ih₂ ⟨pos, l, r, hm⟩
  | loop started tested stepped inner ih₁ ih₂ =>
    obtain ⟨pos, l, r, hm⟩ := hu
    simp only [nodes, List.mem_append] at hm
    rcases hm with hm | hm | hm | hm
    · exact optionalStmt _ ih₁ ⟨pos, l, r, hm⟩
    · exact optional _ tested ⟨pos, l, r, hm⟩
    · exact optional _ stepped ⟨pos, l, r, hm⟩
    · exact ih₂ ⟨pos, l, r, hm⟩
  | ret value => exact value.supports hu
  | expr value => exact value.supports hu

end Stmt

/-- Every operator in a proper program is supported. -/
theorem Program.Proper.supports {p : Program} (h : p.Proper) {op : BinaryOp} (hu : p.Uses op) :
    p.req.Supports op := by
  obtain ⟨pos, l, r, hm⟩ := hu
  obtain ⟨f, hf, hm⟩ := List.mem_flatMap.mp hm
  obtain ⟨b, hb, hs⟩ := (h.functions f hf).body
  rw [Function.nodes, hb] at hm
  obtain ⟨x, hx, hm⟩ := Stmt.mem_allNodes.mp hm
  exact (hs x hx).supports ⟨pos, l, r, hm⟩

namespace Grammar

variable {s s' : State} {op : BinaryOp}

/-- The flags behind a step: those from before it and those of the operators in its result. -/
def Accounts (req : Requirements) (xs : List Expr) (req' : Requirements) : Prop :=
  ∀ op, req'.needs op → req.needs op ∨ Expr.Uses op xs

namespace Accounts

variable {req req₁ req' : Requirements} {xs ys zs : List Expr}

theorem refl (req : Requirements) (xs : List Expr) : Accounts req xs req := fun _ h => .inl h

theorem mono (h : Accounts req xs req') (hs : xs ⊆ ys) : Accounts req ys req' :=
  fun op hn => (h op hn).imp_right fun hu => hu.mono hs

theorem trans (h₁ : Accounts req xs req₁) (h₂ : Accounts req₁ ys req') (hx : xs ⊆ zs)
    (hy : ys ⊆ zs) : Accounts req zs req' := by
  intro op hn
  rcases h₂ op hn with hn | hu
  · exact h₁.mono hx op hn
  · exact .inr (hu.mono hy)

/-- Two steps whose results stand one behind the other. -/
theorem append (h₁ : Accounts req xs req₁) (h₂ : Accounts req₁ ys req') :
    Accounts req (xs ++ ys) req' :=
  h₁.trans h₂ (List.subset_append_left xs ys) (List.subset_append_right xs ys)

end Accounts

private theorem needs_of_require {req : Requirements} {op op' : BinaryOp}
    (h : (req.require op).needs op') : req.needs op' ∨ op' = op := by
  cases op <;> cases op' <;> simp_all [Requirements.require, Requirements.needs]

/-- The nodes that a form is given to build on. -/
def Form.given : Form → List Expr
  | .chain _ l => l.nodes
  | _ => []

/-- An expression sets no flag but those of the operators in it. What is given to it stays in it. -/
theorem accounts_of_reads {f : Form} {xs : List Expr} (h : Reads f s xs s') :
    f.given ⊆ Expr.allNodes xs ∧ Accounts s.req (Expr.allNodes xs) s'.req := by
  induction h with
  | paren opens inner closes ih => exact ih
  | call isName opens inner ih =>
    refine ⟨List.nil_subset _, ih.2.mono ?_⟩
    rw [Expr.allNodes_singleton, Expr.nodes]
    exact List.subset_cons_self _ _
  | name | number | noArguments => exact ⟨List.nil_subset _, .refl _ _⟩
  | arguments more inner closes ih => exact ih
  | lastArgument only last ih => exact ih
  | moreArguments first comma others ih₁ ih₂ =>
    rw [Expr.allNodes_singleton] at ih₁
    exact ⟨List.nil_subset _, ih₁.2.append ih₂.2⟩
  | plus isPlus operand ih => exact ih
  | @unary s s₁ t x node noPlus isOp operand ih =>
    rw [Expr.allNodes_singleton] at ih ⊢
    exact ⟨List.nil_subset _, ih.2.mono (Expr.nodes_unary? isOp _ _)⟩
  | operand noUnary inner ih => exact ih
  | tightest inner ih => exact ih
  | level left rest ih₁ ih₂ =>
    rw [Expr.allNodes_singleton] at ih₁
    exact ⟨List.nil_subset _, ih₁.2.trans ih₂.2 ih₂.1 (List.Subset.refl _)⟩
  | @endChain s n l noOperator =>
    rw [Expr.allNodes_singleton]
    exact ⟨List.Subset.refl _, .refl _ _⟩
  | @chain s s₁ s₂ t n op swap l r x isOp right rest ih₁ ih₂ =>
    obtain ⟨hu, hl, hr⟩ := Expr.uses_operation swap t.pos op l r
    rw [Expr.allNodes_singleton] at ih₁
    -- The new flag is that of the node that the rest of the level is built on.
    have set : Accounts s₁.req (Expr.allNodes [x]) (s₁.req.require op) := by
      intro op' hn
      rcases needs_of_require hn with hn | rfl
      · exact .inl hn
      · exact .inr (hu.mono ih₂.1)
    have after := set.trans ih₂.2 (List.Subset.refl _) (List.Subset.refl _)
    refine ⟨List.Subset.trans hl ih₂.1, ?_⟩
    exact ih₁.2.trans after (List.Subset.trans hr ih₂.1) (List.Subset.refl _)
  | value inner noAssign ih => exact ih
  | assign left eq right ih₁ ih₂ =>
    rw [Expr.allNodes_singleton] at ih₁ ih₂ ⊢
    refine ⟨List.nil_subset _, (ih₁.2.append ih₂.2).mono ?_⟩
    rw [Expr.nodes]
    exact List.subset_cons_self _ _

theorem accounts_of_readsAssign {x : Expr} (h : Reads .assign s [x] s') :
    Accounts s.req x.nodes s'.req := by
  have ha := (accounts_of_reads h).2
  rwa [Expr.allNodes_singleton] at ha

/-- One expression before a token. -/
theorem accounts_of_readsPush {t : Token} {x : Expr} (h : Reads .assign s [x] (s'.push t)) :
    Accounts s.req x.nodes s'.req := by
  have ha := accounts_of_readsAssign h
  exact ha

theorem accounts_of_readsDeclarator {inits : List Stmt} (h : ReadsDeclarator s inits s') :
    Accounts s.req (Stmt.allNodes inits) s'.req := by
  cases h with
  | bare => exact .refl _ _
  | init areStars isName isNew notScratch eq value =>
    have hx := accounts_of_readsAssign value
    refine Accounts.mono hx fun y hy => ?_
    simp [Stmt.allNodes, Stmt.nodes, Expr.nodes, hy]

private theorem accounts_of_readsDeclarators {inits : List Stmt} (h : ReadsDeclarators s inits s') :
    Accounts s.req (Stmt.allNodes inits) s'.req := by
  induction h with
  | last only ends =>
    have hd := accounts_of_readsDeclarator only
    exact hd
  | more first comma rest ih =>
    rw [Stmt.allNodes_append]
    exact (accounts_of_readsDeclarator first).append ih

theorem accounts_of_readsOptional {close : Bytes} {x : Expr} (h : ReadsOptional close s x s') :
    Accounts s.req x.nodes s'.req := by
  cases h with
  | absent closes => exact .refl _ _
  | present notYet inner closes => exact accounts_of_readsPush inner

private theorem accounts_of_readsFirst {first : Stmt} (h : ReadsFirst s first s') :
    Accounts s.req first.nodes s'.req := by
  cases h with
  | absent ends => exact .refl _ _
  | present notYet inner ends => exact accounts_of_readsPush inner

/-- Statements set no flag but those of the operators in them. -/
theorem accounts_of_readsStmt {f : StmtForm} {xs : List Stmt} (h : ReadsStmt f s xs s') :
    Accounts s.req (Stmt.allNodes xs) s'.req := by
  induction h with
  | ret isReturn value ends =>
    have hx := accounts_of_readsPush value
    rw [Stmt.allNodes_singleton]
    exact hx
  | cond isIf opens test closes first second ih₁ ih₂ =>
    rw [Stmt.allNodes_singleton] at ih₁ ih₂ ⊢
    have ht := accounts_of_readsPush test
    exact ht.append (ih₁.append ih₂)
  | loop isFor opens init cond inc inner ih =>
    rw [Stmt.allNodes_singleton] at ih ⊢
    have hi := accounts_of_readsFirst init
    have hc := accounts_of_readsOptional cond
    have hs := accounts_of_readsOptional inc
    exact hi.append (hc.append (hs.append ih))
  | whileLoop isWhile opens test closes inner ih =>
    rw [Stmt.allNodes_singleton] at ih ⊢
    have ht := accounts_of_readsPush test
    exact ht.append ih
  | nested opens inner ih =>
    rw [Stmt.allNodes_singleton]
    exact ih
  | empty ends => exact .refl _ _
  | expr plain inner ends =>
    rw [Stmt.allNodes_singleton]
    exact accounts_of_readsPush inner
  | noElse noElse => exact .refl _ _
  | orElse isElse inner ih => exact ih
  | endBlock closes => exact .refl _ _
  | declaration isInt first rest ih =>
    have hd := accounts_of_readsDeclarators first
    exact hd.append ih
  | item notEnd noInt first rest ih₁ ih₂ =>
    rw [Stmt.allNodes_singleton] at ih₁
    exact ih₁.append ih₂

private theorem accounts_of_readsFunction {f : Function} (h : ReadsFunction s f s') :
    Accounts s.req f.nodes s'.req := by
  cases h with
  | intro isInt areStars isName opens closes begins inner =>
    have hb := accounts_of_readsStmt inner
    exact hb

/-- Functions set no flag but those of the operators in them. -/
theorem accounts_of_readsFunctions {known : List Function} {p : Program}
    (h : ReadsFunctions known s p) :
    known.flatMap Function.nodes ⊆ p.nodes ∧ Accounts s.req p.nodes p.req := by
  induction h with
  | done ended => exact ⟨List.Subset.refl _, .refl _ _⟩
  | @more known s s₁ f p first isNew rest ih =>
    rw [List.flatMap_append, List.flatMap_singleton, List.append_subset] at ih
    obtain ⟨⟨hknown, hf⟩, hrest⟩ := ih
    exact ⟨hknown, (accounts_of_readsFunction first).trans hrest hf (List.Subset.refl _)⟩

private theorem needs_of_parse {toks : List Token} {req : Requirements} {p : Program}
    (h : parse toks req = .ok p) (hn : p.req.needs op) : req.needs op ∨ p.Uses op := by
  rw [parse_eq_ok_iff] at h
  have hr : (initial toks req).req = req := rfl
  rw [← hr]
  generalize initial toks req = i at h
  cases h with
  | topLevel opens inner ended =>
    have hb := accounts_of_readsStmt inner op hn
    rw [Program.Uses, Program.nodes, List.flatMap_singleton]
    exact hb
  | functions notBlock inner => exact (accounts_of_readsFunctions inner).2 op hn

def flagged : List BinaryOp := [.lt, .le, .ne]

private theorem needs_of_supports {req : Requirements} (hop : op ∈ flagged) (h : req.Supports op) :
    req.needs op := by
  have hn : Lowering.native? op = none := by
    simp only [flagged, List.mem_cons, List.not_mem_nil, or_false] at hop
    rcases hop with rfl | rfl | rfl <;> rfl
  rcases h with h | h
  · rw [hn] at h
    cases h
  · exact h

theorem mem_flagged_of_needs {req : Requirements} (h : req.needs op) : op ∈ flagged := by
  cases op <;> first | decide | cases h

/-- With no flags before it, a parse sets those of the operators in its tree. -/
theorem needs_iff_uses {src : Bytes} {toks : List Token} {p : Program}
    (hsrc : Token.scan src = .ok toks) (h : parse toks {} = .ok p) (hop : op ∈ flagged) :
    p.req.needs op ↔ p.Uses op := by
  constructor
  · intro hn
    rcases needs_of_parse h hn with hn | hu
    · cases op <;> cases hn
    · exact hu
  · intro hu
    exact needs_of_supports hop ((proper_of_parse hsrc h).supports hu)

end Grammar

end StackC
