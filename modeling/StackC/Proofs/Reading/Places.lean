import StackC.Proofs.Tree.Operators

/-! A parse speaks only of places that it was given: each node stands at a token, and each error at
a token or at the end of them. -/
namespace StackC.Grammar

/-- The places that a parse may speak of: those of tokens, and the end of the tokens. -/
structure Extent where
  place : Int → Prop
  stop : Int

namespace Extent

variable (e : Extent)

/-- The tokens ahead stand at such places and end where they have to. -/
structure Covers (s : State) : Prop where
  tokens : ∀ t ∈ s.ahead, e.place t.pos
  ends : s.stop = e.stop

/-- These nodes stand at such places. -/
def Holds (xs : List Expr) : Prop := ∀ x ∈ xs, ∀ pos ∈ x.pos?, e.place pos

def HoldsExpr (x : Expr) : Prop := e.Holds x.nodes

def HoldsExprs (xs : List Expr) : Prop := e.Holds (Expr.allNodes xs)

def HoldsStmt (x : Stmt) : Prop := e.Holds x.nodes

def HoldsStmts (xs : List Stmt) : Prop := e.Holds (Stmt.allNodes xs)

/-- The function is named at such a place, and its nodes stand at such places. -/
structure HoldsFunction (f : Function) : Prop where
  name : e.place f.pos
  nodes : e.Holds f.nodes

/-- The parse stops at such a place with an error of syntax, or its result is as it has to be. -/
inductive Keeps {A : Type} (Q : A → Prop) : Except Halt A → Prop
  | ok {a : A} (h : Q a) : Keeps Q (.ok a)
  | error {h : Halt} (stage : h.error.cause.stage = .parse)
      (place : e.place h.error.offset ∨ h.error.offset = e.stop) : Keeps Q (.error h)

/-- A step gives such a value and leaves such tokens. -/
structure Lands {s : State} {α : Type} (V : α → Prop) (p : Progress s α) : Prop where
  value : V p.value
  state : e.Covers p.state

structure Rests {s : State} {α : Type} (V : α → Prop) (p : Pause s α) : Prop where
  value : V p.value
  state : e.Covers p.state

variable {e}

theorem holds_nil : e.Holds [] := fun _ hx => absurd hx List.not_mem_nil

theorem holds_cons {x : Expr} {xs : List Expr} :
    e.Holds (x :: xs) ↔ (∀ pos ∈ x.pos?, e.place pos) ∧ e.Holds xs := List.forall_mem_cons

theorem holds_append {xs ys : List Expr} : e.Holds (xs ++ ys) ↔ e.Holds xs ∧ e.Holds ys :=
  List.forall_mem_append

/-- A node stands at such a place if its own offset is one. -/
theorem holds_node {x : Expr} {pos : Int} {xs : List Expr} (hx : x.pos? = some pos)
    (hp : e.place pos) (hs : e.Holds xs) : e.Holds (x :: xs) := by
  refine holds_cons.mpr ⟨fun q hq => ?_, hs⟩
  rw [hx, Option.mem_some_iff] at hq
  exact hq ▸ hp

theorem covers_push {s : State} {t : Token} :
    e.Covers (s.push t) ↔ e.place t.pos ∧ e.Covers s := by
  constructor
  · intro h
    exact ⟨h.tokens t List.mem_cons_self,
      fun u hu => h.tokens u (List.mem_cons_of_mem t hu), h.ends⟩
  · intro h
    exact ⟨List.forall_mem_cons.mpr ⟨h.1, h.2.tokens⟩, h.2.ends⟩

theorem Covers.pos {s : State} (h : e.Covers s) : e.place s.pos ∨ s.pos = e.stop := by
  rcases s.ended_or_push with he | ⟨t, s, rfl⟩
  · refine .inr ?_
    rw [State.pos, he]
    exact h.ends
  · exact .inl (covers_push.mp h).1

namespace Keeps

variable {A B α : Type} {Q : A → Prop} {R : B → Prop} {V : α → Prop} {s : State}

theorem bind {x : Except Halt A} {k : A → Except Halt B} (h : e.Keeps Q x)
    (hk : ∀ a, Q a → e.Keeps R (k a)) : e.Keeps R (x >>= k) := by
  cases h with
  | ok h => exact hk _ h
  | error stage place => exact .error stage place

theorem step {x : Except Halt (Progress s α)} {k : Progress s α → Except Halt B}
    (h : e.Keeps (e.Lands V) x)
    (hk : ∀ v t h₁, V v → e.Covers t → e.Keeps R (k ⟨v, t, h₁⟩)) : e.Keeps R (x >>= k) :=
  h.bind fun ⟨v, t, h₁⟩ hp => hk v t h₁ hp.value hp.state

theorem pause {x : Except Halt (Pause s α)} {k : Pause s α → Except Halt B}
    (h : e.Keeps (e.Rests V) x)
    (hk : ∀ v t h₁, V v → e.Covers t → e.Keeps R (k ⟨v, t, h₁⟩)) : e.Keeps R (x >>= k) :=
  h.bind fun ⟨v, t, h₁⟩ hp => hk v t h₁ hp.value hp.state

theorem haltAt {pos : Int} {cause : Cause} (hp : e.place pos) (hc : cause.stage = .parse) :
    e.Keeps Q (s.haltAt pos cause) := .error hc (.inl hp)

theorem halt {cause : Cause} (hs : e.Covers s) (hc : cause.stage = .parse) :
    e.Keeps Q (s.halt cause) := .error hc hs.pos

theorem ite {b : Bool} {x y : Except Halt A} (yes : e.Keeps Q x) (no : e.Keeps Q y) :
    e.Keeps Q (if b then x else y) := by
  cases b with
  | true => exact yes
  | false => exact no

end Keeps
end Extent

variable {e : Extent}

theorem accept?_covers {s : State} (hs : e.Covers s) (lit : Bytes) :
    accept? lit s = none ∨ ∃ t s₁ h₁, accept? lit s = some ⟨t, s₁, h₁⟩ ∧ e.place t.pos ∧
      e.Covers s₁ := by
  cases ha : accept? lit s with
  | none => exact .inl rfl
  | some p =>
    obtain ⟨t, s₁, h₁⟩ := p
    obtain ⟨rfl, -⟩ := accept?_eq_some ha
    exact .inr ⟨t, s₁, h₁, rfl, Extent.covers_push.mp hs⟩

section Tokens

variable {s : State} (hs : e.Covers s)
include hs

theorem keeps_expect (lit : Bytes) :
    e.Keeps (e.Lands fun t => e.place t.pos) (expect lit s) := by
  unfold expect
  rcases accept?_covers hs lit with ha | ⟨t, s₁, h₁, ha, ht, hs₁⟩
  · rw [ha]
    exact .halt hs rfl
  · rw [ha]
    exact .ok ⟨ht, hs₁⟩

theorem keeps_identifier : e.Keeps (e.Lands fun t => e.place t.pos) (identifier s) := by
  unfold identifier
  cases hn : (next? s).filter fun p => p.value.kind == .ident with
  | none => exact .halt hs rfl
  | some p =>
    obtain ⟨t, s₁, h₁⟩ := p
    have hi : identifier s = .ok ⟨t, s₁, h₁⟩ := by rw [identifier, hn]
    obtain ⟨rfl, -⟩ := identifier_eq_ok hi
    exact .ok ⟨(Extent.covers_push.mp hs).1, (Extent.covers_push.mp hs).2⟩

theorem covers_pointers : e.Covers (pointers s).state :=
  ⟨fun t ht => hs.tokens t ((List.dropWhile_suffix _).subset ht), hs.ends⟩

end Tokens

theorem keeps_upTo {α : Type} {V : α → Prop} {s t : State} {v : α}
    {h₁ : t.ahead.length < s.ahead.length} (hv : V v) (ht : e.Covers t) (close : Bytes) :
    e.Keeps (e.Lands V) ((⟨v, t, h₁⟩ : Progress s α).upTo close) :=
  (keeps_expect ht close).step fun _ _ _ _ hs => .ok ⟨hv, hs⟩

/-! Expressions -/

/-- The form is read inside the extent. -/
def Form.Contained (e : Extent) (f : Form) (s : State) : Prop :=
  e.Covers s →
    match f with
    | .primary => e.Keeps (e.Lands e.HoldsExpr) (Grammar.primary s)
    | .arguments => e.Keeps (e.Lands e.HoldsExprs) (Grammar.arguments s)
    | .argumentList =>
      e.Keeps (e.Lands e.HoldsExprs) (Grammar.argumentList s)
    | .unary => e.Keeps (e.Lands e.HoldsExpr) (Grammar.unary s)
    | .binary n => e.Keeps (e.Lands e.HoldsExpr) (Grammar.binary n s)
    | .chain n l => e.HoldsExpr l → e.Keeps (e.Rests e.HoldsExpr) (Grammar.chain n l s)
    | .assign => e.Keeps (e.Lands e.HoldsExpr) (Grammar.assign s)

theorem holds_unary? {t : Token} {node : Int → Expr → Expr} (h : unary? t = some node) {pos : Int}
    {x : Expr} (hp : e.place pos) (hx : e.HoldsExpr x) : e.HoldsExpr (node pos x) := by
  unfold unary? at h
  repeat' split at h
  all_goals cases h
  · exact Extent.holds_node rfl hp hx
  · exact Extent.holds_node rfl hp hx
  · exact Extent.holds_node rfl hp hx

theorem holds_operation (swap : Bool) {pos : Int} {op : BinaryOp} {l r : Expr} (hp : e.place pos)
    (hl : e.HoldsExpr l) (hr : e.HoldsExpr r) : e.HoldsExpr (operation swap pos op l r) := by
  cases swap with
  | false => exact Extent.holds_node rfl hp (Extent.holds_append.mpr ⟨hl, hr⟩)
  | true => exact Extent.holds_node rfl hp (Extent.holds_append.mpr ⟨hr, hl⟩)

private theorem stage_of_resolve {locals : List Local} {t : Token} {cause : Cause}
    (h : resolve locals t = .error cause) : cause.stage = .parse := by
  unfold resolve at h
  split at h
  · cases h
  · split at h <;> cases h
    rfl

section Expr

variable {s : State} (shorter : ∀ g s', s'.ahead.length < s.ahead.length → Form.Contained e g s')
include shorter

private theorem contained_primary : Form.primary.Contained e s := by
  intro hs
  simp only
  unfold primary
  rcases s.ended_or_push with he | ⟨t, s, rfl⟩
  · rw [next?_ended he]
    exact .halt hs rfl
  obtain ⟨ht, hr⟩ := Extent.covers_push.mp hs
  replace hr : e.Covers { s with fresh := none } := ⟨hr.tokens, hr.ends⟩
  simp only [next?_push]
  refine .ite ?_ ?_
  · refine .step (shorter .assign { s with fresh := none } (s.length_lt_push t) hr) ?_
    intro x s₁ h₁ hx hs₁
    exact (keeps_upTo hx hs₁ _).step fun y s₂ h₂ hy hs₂ => .ok ⟨hy, hs₂⟩
  cases t.kind with
  | ident =>
    simp only
    rcases accept?_covers hr (ascii "(") with ha | ⟨t₁, s₁, h₁, ha, ht₁, hs₁⟩
    · simp only [ha]
      cases hv : resolve s.locals t with
      | error cause => exact .haltAt ht (stage_of_resolve hv)
      | ok p => exact .ok ⟨Extent.holds_node rfl ht Extent.holds_nil, hr.tokens, hr.ends⟩
    · simp only [ha]
      have hlt : s₁.ahead.length < (s.push t).ahead.length := Nat.lt_trans h₁ (s.length_lt_push t)
      refine .step (shorter .arguments s₁ hlt hs₁) fun args s₂ h₂ hargs hs₂ => ?_
      exact .ok ⟨Extent.holds_node rfl ht hargs, hs₂.tokens, hs₂.ends⟩
  | num => exact .ok ⟨Extent.holds_node rfl ht Extent.holds_nil, hr⟩
  | _ => exact .halt hs rfl

private theorem contained_chain (n : Nat) (l : Expr) : (Form.chain n l).Contained e s := by
  intro hs hl
  unfold chain
  rcases s.ended_or_push with he | ⟨t, s, rfl⟩
  · rw [next?_ended he]
    exact .ok ⟨hl, hs⟩
  obtain ⟨ht, hr⟩ := Extent.covers_push.mp hs
  simp only [next?_push]
  cases operator? n t with
  | none => exact .ok ⟨hl, hs⟩
  | some o =>
    obtain ⟨op, swap⟩ := o
    refine .step (shorter (.binary n) s (s.length_lt_push t) hr) fun r s₁ h₁ hx hs₁ => ?_
    have hlt : s₁.ahead.length < (s.push t).ahead.length := Nat.lt_trans h₁ (s.length_lt_push t)
    have hc := shorter (.chain n (operation swap t.pos op l r))
      { s₁ with req := s₁.req.require op } hlt ⟨hs₁.tokens, hs₁.ends⟩
    refine .pause (hc (holds_operation swap ht hl hx)) fun x s₂ h₂ hx hs₂ => ?_
    exact .ok ⟨hx, hs₂⟩

theorem contained_unary (tighter : Form.primary.Contained e s) : Form.unary.Contained e s := by
  intro hs
  simp only
  unfold unary
  rcases s.ended_or_push with he | ⟨t, s, rfl⟩
  · rw [next?_ended he]
    exact tighter hs
  obtain ⟨ht, hr⟩ := Extent.covers_push.mp hs
  simp only [next?_push]
  refine .ite ?_ ?_
  · refine .step (shorter .unary s (s.length_lt_push t) hr) fun x s₁ h₁ hx hs₁ => ?_
    exact .ok ⟨hx, hs₁⟩
  cases hu : unary? t with
  | none => exact tighter hs
  | some node =>
    refine .step (shorter .unary s (s.length_lt_push t) hr) fun x s₁ h₁ hx hs₁ => ?_
    exact .ok ⟨holds_unary? hu ht hx, hs₁.tokens, hs₁.ends⟩

private theorem contained_binary_succ (n : Nat) (tighter : (Form.binary n).Contained e s) :
    (Form.binary (n + 1)).Contained e s := by
  intro hs
  simp only
  rw [binary]
  refine .step (tighter hs) fun l s₁ h₁ hl hs₁ => ?_
  refine .pause (shorter (.chain n l) s₁ h₁ hs₁ hl) fun x s₂ h₂ hx hs₂ => ?_
  exact .ok ⟨hx, hs₂⟩

private theorem contained_assign (tighter : (Form.binary levels).Contained e s) :
    Form.assign.Contained e s := by
  intro hs
  simp only
  unfold assign
  refine .step (tighter hs) fun l s₁ h₁ hl hs₁ => ?_
  rcases accept?_covers hs₁ (ascii "=") with ha | ⟨t, s₂, h₂, ha, ht, hs₂⟩
  · simp only [ha]
    exact .ok ⟨hl, hs₁⟩
  · simp only [ha]
    refine .step (shorter (.binary levels) s₂ (Nat.lt_trans h₂ h₁) hs₂) fun r s₃ h₃ hr hs₃ => ?_
    exact .ok ⟨Extent.holds_node rfl ht (Extent.holds_append.mpr ⟨hl, hr⟩), hs₃.tokens, hs₃.ends⟩

private theorem contained_argumentList (tighter : Form.assign.Contained e s) :
    Form.argumentList.Contained e s := by
  intro hs
  simp only
  unfold argumentList
  refine .step (tighter hs) fun x s₁ h₁ hx hs₁ => ?_
  rcases accept?_covers hs₁ (ascii ",") with ha | ⟨t, s₂, h₂, ha, -, hs₂⟩
  · simp only [ha]
    exact .ok ⟨Extent.holds_append.mpr ⟨hx, Extent.holds_nil⟩, hs₁⟩
  · simp only [ha]
    refine .step (shorter .argumentList s₂ (Nat.lt_trans h₂ h₁) hs₂) fun xs s₃ h₃ hxs hs₃ => ?_
    exact .ok ⟨Extent.holds_append.mpr ⟨hx, hxs⟩, hs₃⟩

omit shorter in
private theorem contained_arguments (tighter : Form.argumentList.Contained e s) :
    Form.arguments.Contained e s := by
  intro hs
  simp only
  unfold arguments
  rcases accept?_covers hs (ascii ")") with ha | ⟨t, s₁, h₁, ha, -, hs₁⟩
  · simp only [ha]
    exact .step (tighter hs) fun xs s₁ h₁ hxs hs₁ => keeps_upTo hxs hs₁ _
  · simp only [ha]
    exact .ok ⟨Extent.holds_nil, hs₁⟩

omit shorter in
private theorem contained_binary_zero (tighter : Form.unary.Contained e s) :
    (Form.binary 0).Contained e s := by
  intro hs
  simp only
  rw [binary]
  exact tighter hs

end Expr

theorem contained (e : Extent) (f : Form) (s : State) : f.Contained e s := by
  refine ranked_induction Form.rank (fun f s shorter tighter => ?_) f s
  cases f with
  | primary => exact contained_primary shorter
  | arguments => exact contained_arguments (tighter .argumentList (by decide))
  | argumentList => exact contained_argumentList shorter (tighter .assign (by decide))
  | unary => exact contained_unary shorter (tighter .primary (by decide))
  | binary n =>
    cases n with
    | zero => exact contained_binary_zero (tighter .unary (by decide))
    | succ n => exact contained_binary_succ shorter n (tighter (.binary n) (Nat.lt_succ_self _))
  | chain n l => exact contained_chain shorter n l
  | assign => exact contained_assign shorter (tighter (.binary levels) (by decide))

/-! Statements -/

section Stmt

variable {s : State} (hs : e.Covers s)
include hs

theorem keeps_assign : e.Keeps (e.Lands e.HoldsExpr) (assign s) :=
  contained e .assign s hs

private theorem keeps_initialValue {name : Token} (hn : e.place name.pos) (i : Nat) :
    e.Keeps (e.Rests e.HoldsStmts) (initialValue name i s) := by
  unfold initialValue
  rcases accept?_covers hs (ascii "=") with ha | ⟨t, s₁, h₁, ha, ht, hs₁⟩
  · simp only [ha]
    exact .ok ⟨Extent.holds_nil, hs⟩
  · simp only [ha]
    refine .step (keeps_assign hs₁) fun x s₂ h₂ hx hs₂ => .ok ⟨?_, hs₂⟩
    have hinit : e.HoldsExpr (.assign t.pos (.var name.pos i) x) :=
      Extent.holds_node rfl ht (Extent.holds_node rfl hn hx)
    exact Extent.holds_append.mpr ⟨hinit, Extent.holds_nil⟩

private theorem keeps_declarator :
    e.Keeps (e.Lands e.HoldsStmts) (declarator s) := by
  unfold declarator
  refine .step (keeps_identifier (covers_pointers hs)) fun name s₁ h₁ hn hs₁ => ?_
  refine .ite (.haltAt hn rfl) (.ite (.haltAt hn rfl) ?_)
  have hd : e.Covers { s₁ with
      locals := declare s₁.locals name.lit (pointers s).value name.pos } := ⟨hs₁.tokens, hs₁.ends⟩
  exact .pause (keeps_initialValue hd hn _) fun inits s₂ h₂ hi hs₂ => .ok ⟨hi, hs₂⟩

theorem keeps_exprStmt : e.Keeps (e.Lands e.HoldsStmt) (exprStmt s) := by
  unfold exprStmt
  refine (keeps_assign hs).step fun x s₁ h₁ hx hs₁ => ?_
  exact (keeps_upTo hx hs₁ _).step fun y s₂ h₂ hy hs₂ => .ok ⟨hy, hs₂⟩

theorem keeps_parenExpr : e.Keeps (e.Lands e.HoldsExpr) (parenExpr s) := by
  unfold parenExpr
  refine (keeps_expect hs _).step fun t s₁ h₁ ht hs₁ => ?_
  refine (keeps_assign hs₁).step fun x s₂ h₂ hx hs₂ => ?_
  exact (keeps_upTo hx hs₂ _).step fun y s₃ h₃ hy hs₃ => .ok ⟨hy, hs₃⟩

theorem keeps_optionalExpr (close : Bytes) :
    e.Keeps (e.Lands e.HoldsExpr) (optionalExpr close s) := by
  unfold optionalExpr
  rcases accept?_covers hs close with ha | ⟨t, s₁, h₁, ha, -, hs₁⟩
  · simp only [ha]
    exact (keeps_assign hs).step fun x s₁ h₁ hx hs₁ => keeps_upTo hx hs₁ close
  · simp only [ha]
    exact .ok ⟨Extent.holds_nil, hs₁⟩

private theorem keeps_firstStep : e.Keeps (e.Lands e.HoldsStmt) (firstStep s) := by
  unfold firstStep
  rcases accept?_covers hs (ascii ";") with ha | ⟨t, s₁, h₁, ha, -, hs₁⟩
  · simp only [ha]
    exact keeps_exprStmt hs
  · simp only [ha]
    exact .ok ⟨Extent.holds_nil, hs₁⟩

private theorem keeps_forHead : e.Keeps (e.Lands fun h => e.HoldsStmt h.1 ∧ e.HoldsExpr h.2.1 ∧
    e.HoldsExpr h.2.2) (forHead s) := by
  unfold forHead
  refine (keeps_expect hs _).step fun t s₁ h₁ ht hs₁ => ?_
  refine (keeps_firstStep hs₁).step fun first s₂ h₂ hfirst hs₂ => ?_
  refine (keeps_optionalExpr hs₂ _).step fun test s₃ h₃ htest hs₃ => ?_
  refine (keeps_optionalExpr hs₃ _).step fun step s₄ h₄ hstep hs₄ => ?_
  exact .ok ⟨⟨hfirst, htest, hstep⟩, hs₄⟩

end Stmt

theorem keeps_declarators (s : State) (hs : e.Covers s) :
    e.Keeps (e.Lands e.HoldsStmts) (declarators s) := by
  unfold declarators
  refine .step (keeps_declarator hs) fun inits s₁ h₁ hi hs₁ => ?_
  rcases accept?_covers hs₁ (ascii ",") with ha | ⟨t, s₂, h₂, ha, -, hs₂⟩
  · simp only [ha]
    exact keeps_upTo hi hs₁ _
  · simp only [ha]
    have shorter : s₂.ahead.length < s.ahead.length := Nat.lt_trans h₂ h₁
    refine .step (keeps_declarators s₂ hs₂) fun more s₃ h₃ hm hs₃ => ?_
    have hall : e.HoldsStmts (inits ++ more) := by
      unfold Extent.HoldsStmts
      rw [Stmt.allNodes_append]
      exact Extent.holds_append.mpr ⟨hi, hm⟩
    exact .ok ⟨hall, hs₃⟩
termination_by s.ahead.length

theorem holds_loop {pos : Int} {first body : Stmt} {test step : Expr} (hfirst : e.HoldsStmt first)
    (htest : e.HoldsExpr test) (hstep : e.HoldsExpr step) (hbody : e.HoldsStmt body) :
    e.HoldsStmt (.loop pos first test step body) := by
  unfold Extent.HoldsStmt
  simp only [Stmt.nodes, Extent.holds_append]
  exact ⟨hfirst, htest, hstep, hbody⟩

/-- The form is read inside the extent. -/
def StmtForm.Contained (e : Extent) (f : StmtForm) (s : State) : Prop :=
  e.Covers s →
    match f with
    | .stmt => e.Keeps (e.Lands e.HoldsStmt) (Grammar.stmt s)
    | .otherwise => e.Keeps (e.Rests e.HoldsStmt) (Grammar.otherwise s)
    | .block => e.Keeps (e.Lands e.HoldsStmts) (Grammar.block s)

section Stmt

variable {s : State}
  (shorter : ∀ g s', s'.ahead.length < s.ahead.length → StmtForm.Contained e g s')
include shorter

private theorem contained_stmt : StmtForm.stmt.Contained e s := by
  intro hs
  simp only
  unfold stmt
  rcases s.ended_or_push with he | ⟨t, s, rfl⟩
  · rw [next?_ended he]
    exact keeps_exprStmt hs
  obtain ⟨ht, hr⟩ := Extent.covers_push.mp hs
  have hlt : s.ahead.length < (s.push t).ahead.length := s.length_lt_push t
  simp only [next?_push]
  refine .ite ?_ (.ite ?_ (.ite ?_ (.ite ?_ (.ite ?_ (.ite ?_ ?_)))))
  · refine (keeps_assign hr).step fun x s₁ h₁ hx hs₁ => ?_
    exact (keeps_upTo hx hs₁ _).step fun y s₂ h₂ hy hs₂ => .ok ⟨hy, hs₂⟩
  · refine (keeps_parenExpr hr).step fun test s₁ h₁ htest hs₁ => ?_
    refine .step (shorter .stmt s₁ (Nat.lt_trans h₁ hlt) hs₁) fun yes s₂ h₂ hyes hs₂ => ?_
    have hlt₂ : s₂.ahead.length < (s.push t).ahead.length := Nat.lt_trans h₂ (Nat.lt_trans h₁ hlt)
    refine .pause (shorter .otherwise s₂ hlt₂ hs₂) fun no s₃ h₃ hno hs₃ => ?_
    exact .ok ⟨Extent.holds_append.mpr ⟨htest, Extent.holds_append.mpr ⟨hyes, hno⟩⟩, hs₃⟩
  · refine (keeps_forHead hr).step fun head s₁ h₁ hhead hs₁ => ?_
    refine .step (shorter .stmt s₁ (Nat.lt_trans h₁ hlt) hs₁) fun body s₂ h₂ hbody hs₂ => ?_
    exact .ok ⟨holds_loop hhead.1 hhead.2.1 hhead.2.2 hbody, hs₂⟩
  · refine (keeps_parenExpr hr).step fun test s₁ h₁ htest hs₁ => ?_
    refine .step (shorter .stmt s₁ (Nat.lt_trans h₁ hlt) hs₁) fun body s₂ h₂ hbody hs₂ => ?_
    exact .ok ⟨holds_loop Extent.holds_nil htest Extent.holds_nil hbody, hs₂⟩
  · refine .step (shorter .block s hlt hr) fun body s₁ h₁ hbody hs₁ => ?_
    exact .ok ⟨hbody, hs₁⟩
  · exact .ok ⟨Extent.holds_nil, hr⟩
  · exact keeps_exprStmt hs

private theorem contained_otherwise : StmtForm.otherwise.Contained e s := by
  intro hs
  simp only
  unfold otherwise
  rcases accept?_covers hs (ascii "else") with ha | ⟨t, s₁, h₁, ha, -, hs₁⟩
  · simp only [ha]
    exact .ok ⟨Extent.holds_nil, hs⟩
  · simp only [ha]
    refine .step (shorter .stmt s₁ h₁ hs₁) fun x s₂ h₂ hx hs₂ => ?_
    exact .ok ⟨hx, hs₂⟩

theorem contained_block (tighter : StmtForm.stmt.Contained e s) : StmtForm.block.Contained e s := by
  intro hs
  simp only
  unfold block
  rcases s.ended_or_push with he | ⟨t, s, rfl⟩
  · rw [next?_ended he]
    exact .halt hs rfl
  obtain ⟨ht, hr⟩ := Extent.covers_push.mp hs
  have hlt : s.ahead.length < (s.push t).ahead.length := s.length_lt_push t
  simp only [next?_push]
  refine .ite ?_ (.ite ?_ ?_)
  · exact .ok ⟨Extent.holds_nil, hr⟩
  · refine .step (keeps_declarators s hr) fun inits s₁ h₁ hi hs₁ => ?_
    refine .step (shorter .block s₁ (Nat.lt_trans h₁ hlt) hs₁) fun body s₂ h₂ hbody hs₂ => ?_
    exact .ok ⟨Extent.holds_append.mpr ⟨hi, hbody⟩, hs₂⟩
  · refine .step (tighter hs) fun x s₁ h₁ hx hs₁ => ?_
    refine .step (shorter .block s₁ h₁ hs₁) fun body s₂ h₂ hbody hs₂ => ?_
    exact .ok ⟨Extent.holds_append.mpr ⟨hx, hbody⟩, hs₂⟩

end Stmt

theorem containedStmt (e : Extent) (f : StmtForm) (s : State) : f.Contained e s := by
  refine ranked_induction StmtForm.rank (fun f s shorter tighter => ?_) f s
  cases f with
  | stmt => exact contained_stmt shorter
  | otherwise => exact contained_otherwise shorter
  | block => exact contained_block shorter (tighter .stmt (by decide))

/-! Programs -/

private theorem keeps_function {s : State} (hs : e.Covers s) :
    e.Keeps (e.Lands e.HoldsFunction) (function s) := by
  unfold function
  rcases accept?_covers hs (ascii "int") with ha | ⟨t, s₁, h₁, ha, -, hs₁⟩
  · simp only [ha]
    exact .halt hs rfl
  simp only [ha]
  refine (keeps_identifier (covers_pointers hs₁)).step fun name s₂ h₂ hname hs₂ => ?_
  refine (keeps_expect hs₂ _).step fun _ s₃ h₃ _ hs₃ => ?_
  refine (keeps_expect hs₃ _).step fun _ s₄ h₄ _ hs₄ => ?_
  refine (keeps_expect hs₄ _).step fun brace s₅ h₅ _ hs₅ => ?_
  refine .step (containedStmt e .block { s₅ with locals := [] } ⟨hs₅.tokens, hs₅.ends⟩) ?_
  exact fun stmts s₆ h₆ hbody hs₆ => .ok ⟨⟨hname, hbody⟩, hs₆⟩

theorem keeps_functions (known : List Function) (s : State) (hk : ∀ f ∈ known, e.HoldsFunction f)
    (hs : e.Covers s) :
    e.Keeps (fun p => ∀ f ∈ p.funcs, e.HoldsFunction f) (functions known s) := by
  unfold functions
  refine .ite (.ok hk) ?_
  refine .step (keeps_function hs) fun f s₁ h₁ hf hs₁ => ?_
  refine .ite (.haltAt hf.name rfl) ?_
  exact keeps_functions (known ++ [f]) s₁
    (List.forall_mem_append.mpr ⟨hk, List.forall_mem_singleton.mpr hf⟩) hs₁
termination_by s.ahead.length

theorem keeps_topLevel {brace : Token} {s : State} (hb : e.place brace.pos) (hs : e.Covers s) :
    e.Keeps (fun p => ∀ f ∈ p.funcs, e.HoldsFunction f) (topLevel brace s) := by
  unfold topLevel
  refine .step (containedStmt e .block s hs) fun stmts s₁ h₁ hbody hs₁ => ?_
  exact .ite (.ok (List.forall_mem_singleton.mpr ⟨hb, hbody⟩)) (.halt hs₁ rfl)

/-- The places of a token list. -/
def extent (toks : List Token) : Extent where
  place pos := ∃ t ∈ Token.beforeEnd toks, t.pos = pos
  stop := endOffset toks

/-- A parse fails with an error of syntax at one of its tokens or at their end. The functions and
the nodes of its result stand at its tokens. -/
theorem keeps_parse (toks : List Token) (req : Requirements) :
    (extent toks).Keeps (fun p => ∀ f ∈ p.funcs, (extent toks).HoldsFunction f)
      (parse toks req) := by
  have hs : (extent toks).Covers (initial toks req) := ⟨fun t ht => ⟨t, ht, rfl⟩, rfl⟩
  unfold parse
  unfold initial at hs
  cases ha : Token.beforeEnd toks with
  | nil =>
    rw [ha] at hs
    exact keeps_functions [] _ (List.forall_mem_nil _) hs
  | cons t rest =>
    rw [ha] at hs
    obtain ⟨ht, hr⟩ := Extent.covers_push (s := ⟨rest, endOffset toks, [], none, req⟩).mp hs
    exact .ite (keeps_topLevel ht hr) (keeps_functions [] _ (List.forall_mem_nil _) hs)

end StackC.Grammar
