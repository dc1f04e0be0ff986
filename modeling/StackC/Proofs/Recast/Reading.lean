import StackC.Proofs.Recast.Tree

/-! Reading an expression from tokens with other offsets, or on top of other flags, ends in the same
way. -/
namespace StackC

open Grammar

namespace Recast

def state (m : Recast) (s : State) : State :=
  { s with
    ahead := s.ahead.map m.token, stop := m.pos s.stop, locals := m.vars s.locals
    req := m.req s.req }

def halt (m : Recast) (h : Halt) : Halt := { error := m.error h.error, req := m.req h.req }

/-- The flags of the operators among these tokens are set before the change as after it. -/
def Respects (m : Recast) (toks : List Token) : Prop :=
  ∀ t ∈ toks, ∀ level op swap, operator? level t = some (op, swap) →
    ∀ req, m.req (req.require op) = (m.req req).require op

variable (m : Recast)

theorem state_push (s : State) (t : Token) :
    m.state (s.push t) = (m.state s).push (m.token t) := rfl

@[simp] theorem state_locals (s : State) : (m.state s).locals = m.vars s.locals := rfl

theorem state_pos (s : State) : (m.state s).pos = m.pos s.pos := by
  rcases s with ⟨_ | ⟨t, ts⟩, stop, locals, fresh, req⟩ <;> rfl

theorem state_ended {s : State} (h : s.ahead = []) : (m.state s).ahead = [] := by
  simp [state, h]

variable {m}

theorem Respects.tail {t : Token} {ts : List Token} (h : m.Respects (t :: ts)) : m.Respects ts :=
  fun t ht => h t (List.mem_cons_of_mem _ ht)

end Recast

namespace Grammar

variable (m : Recast)

/-! The steps that look at locals and operators -/

private theorem operator?_token (level : Nat) (t : Token) :
    operator? level (m.token t) = operator? level t := by
  rcases level with _ | _ | _ | _ | n <;> rfl

private theorem unary?_token (t : Token) : unary? (m.token t) = unary? t := rfl

theorem expr_of_unary? {t : Token} {node : Int → Expr → Expr} (h : unary? t = some node) (pos : Int)
    (x : Expr) : node (m.pos pos) (m.expr x) = m.expr (node pos x) := by
  unfold unary? at h
  repeat' split at h
  all_goals cases h
  · rfl
  · rfl
  · rfl

private theorem expr_operation (swap : Bool) (pos : Int) (op : BinaryOp) (l r : Expr) :
    operation swap (m.pos pos) op (m.expr l) (m.expr r) = m.expr (operation swap pos op l r) := by
  cases swap <;> rfl

theorem isVariable_expr (i : Nat) (x : Expr) : isVariable i (m.expr x) = isVariable i x := by
  cases x <;> rfl

theorem retype_vars (locals : List Local) (i : Nat) (type : Ty) :
    retype (m.vars locals) i type = m.vars (retype locals i type) := by
  unfold retype Recast.vars
  apply List.ext_getElem?
  intro j
  rw [List.getElem?_map, List.getElem?_modify, List.getElem?_modify, List.getElem?_map]
  cases locals[j]? with
  | none => rfl
  | some v => by_cases h : i = j <;> simp [h]

private theorem inferDeref_vars (locals : List Local) (fresh : Option Nat) (e : Expr) :
    inferDeref (m.vars locals) fresh (m.expr e) = m.vars (inferDeref locals fresh e) := by
  unfold inferDeref
  cases fresh with
  | none => rfl
  | some i =>
    cases e with
    | deref pos x =>
      simp only [Recast.expr, isVariable_expr, retype_vars]
      split <;> rfl
    | _ => rfl

private theorem inferAssign_vars (locals : List Local) (fresh : Option Nat) (l r : Expr) :
    inferAssign (m.vars locals) fresh (m.expr l) (m.expr r) =
      m.vars (inferAssign locals fresh l r) := by
  unfold inferAssign
  rw [m.type?_expr]
  cases fresh with
  | none => rfl
  | some i =>
    cases r.type? locals with
    | none => rfl
    | some type =>
      simp only [isVariable_expr, retype_vars]
      split <;> rfl

/-- A name is resolved alike, and a new one is declared where its token is. -/
theorem resolve_vars (locals : List Local) (t : Token) :
    resolve (m.vars locals) (m.token t) =
      (resolve locals t).map fun p => (p.1, m.vars p.2.1, p.2.2) := by
  unfold resolve
  rw [show (m.token t).lit = t.lit from rfl, m.findLocal?_vars]
  cases findLocal? locals t.lit with
  | some i => rfl
  | none =>
    by_cases h : t.lit == scratchName
    · simp only [h, if_true]
      rfl
    · simp only [h, Bool.false_eq_true, if_false, Outcome.map_ok, m.vars_declare, m.length_vars]
      rfl

/-! Parses that end alike -/

/-- Both stop at corresponding places, or both give related results. -/
inductive Twin {A B : Type} (m : Recast) (R : A → B → Prop) : Except Halt A → Except Halt B → Prop
  | ok {a : A} {b : B} (h : R a b) : Twin m R (.ok a) (.ok b)
  | error (h : Halt) : Twin m R (.error h) (.error (m.halt h))

/-- Two steps give corresponding values and leave corresponding states. -/
structure SameStep {α : Type} (m : Recast) (f : α → α) {s s' : State} (p : Progress s α)
    (q : Progress s' α) : Prop where
  value : q.value = f p.value
  state : q.state = m.state p.state
  respects : m.Respects p.state.ahead

structure SamePause {α : Type} (m : Recast) (f : α → α) {s s' : State} (p : Pause s α)
    (q : Pause s' α) : Prop where
  value : q.value = f p.value
  state : q.state = m.state p.state
  respects : m.Respects p.state.ahead

namespace Twin

variable {m} {A B A' B' α : Type} {R : A → B → Prop} {R' : A' → B' → Prop} {f : α → α}
  {s s' : State}

theorem bind {x : Except Halt A} {y : Except Halt B} {k : A → Except Halt A'}
    {l : B → Except Halt B'} (h : Twin m R x y) (hk : ∀ a b, R a b → Twin m R' (k a) (l b)) :
    Twin m R' (x >>= k) (y >>= l) := by
  cases h with
  | ok h => exact hk _ _ h
  | error h => exact .error h

/-- What follows a step needs to be looked at for corresponding results only. -/
theorem step {x : Except Halt (Progress s α)} {y : Except Halt (Progress s' α)}
    {k : Progress s α → Except Halt A'} {l : Progress s' α → Except Halt B'}
    (h : Twin m (SameStep m f) x y)
    (hk : ∀ v t h₁ h₂, m.Respects t.ahead → Twin m R' (k ⟨v, t, h₁⟩) (l ⟨f v, m.state t, h₂⟩)) :
    Twin m R' (x >>= k) (y >>= l) := by
  refine h.bind ?_
  rintro ⟨v, t, h₁⟩ ⟨v', t', h₂⟩ ⟨hv, ht, hr⟩
  obtain rfl : v' = f v := hv
  obtain rfl : t' = m.state t := ht
  exact hk v t h₁ h₂ hr

theorem pause {x : Except Halt (Pause s α)} {y : Except Halt (Pause s' α)}
    {k : Pause s α → Except Halt A'} {l : Pause s' α → Except Halt B'}
    (h : Twin m (SamePause m f) x y)
    (hk : ∀ v t h₁ h₂, m.Respects t.ahead → Twin m R' (k ⟨v, t, h₁⟩) (l ⟨f v, m.state t, h₂⟩)) :
    Twin m R' (x >>= k) (y >>= l) := by
  refine h.bind ?_
  rintro ⟨v, t, h₁⟩ ⟨v', t', h₂⟩ ⟨hv, ht, hr⟩
  obtain rfl : v' = f v := hv
  obtain rfl : t' = m.state t := ht
  exact hk v t h₁ h₂ hr

theorem haltAt (s : State) (pos : Int) (cause : Cause) :
    Twin m R (s.haltAt pos cause) ((m.state s).haltAt (m.pos pos) cause) :=
  .error { error := ⟨cause, pos⟩, req := s.req }

theorem halt (s : State) (cause : Cause) : Twin m R (s.halt cause) ((m.state s).halt cause) := by
  unfold State.halt
  rw [m.state_pos]
  exact haltAt s s.pos cause

theorem halt_eq {h h' : Halt} (twin : Twin m R (.error h) (.error h')) : h' = m.halt h := by
  cases twin
  rfl

/-- The same condition is tested on both sides. -/
theorem ite {b b' : Bool} {x x' : Except Halt A} {y y' : Except Halt B} (hb : b' = b)
    (yes : Twin m R x y) (no : Twin m R x' y') :
    Twin m R (if b then x else x') (if b' then y else y') := by
  subst hb
  cases b' with
  | true => exact yes
  | false => exact no

end Twin

theorem accept?_state (lit : Bytes) (s : State) :
    (accept? lit s = none ∧ accept? lit (m.state s) = none) ∨
      ∃ t s₁ h₁ h₂, accept? lit s = some ⟨t, s₁, h₁⟩ ∧
        accept? lit (m.state s) = some ⟨m.token t, m.state s₁, h₂⟩ ∧
        (m.Respects s.ahead → m.Respects s₁.ahead) := by
  rcases s.ended_or_push with he | ⟨t, s, rfl⟩
  · exact .inl ⟨accept?_ended he, accept?_ended (m.state_ended he)⟩
  · rw [m.state_push, accept?_push, accept?_push, m.token_is]
    by_cases ht : t.is lit
    · rw [if_pos ht, if_pos ht]
      exact .inr ⟨t, s, _, _, rfl, rfl, Recast.Respects.tail⟩
    · rw [if_neg ht, if_neg ht]
      exact .inl ⟨rfl, rfl⟩

section Tokens

variable {m} {s : State} (hs : m.Respects s.ahead)
include hs

theorem twin_expect (lit : Bytes) :
    Twin m (SameStep m m.token) (expect lit s) (expect lit (m.state s)) := by
  unfold expect
  rcases accept?_state m lit s with ⟨h₁, h₂⟩ | ⟨t, s₁, _, _, h₁, h₂, hr⟩
  · rw [h₁, h₂]
    exact .halt s _
  · rw [h₁, h₂]
    exact .ok ⟨rfl, rfl, hr hs⟩

theorem twin_identifier :
    Twin m (SameStep m m.token) (identifier s) (identifier (m.state s)) := by
  rcases s.ended_or_push with he | ⟨t, s, rfl⟩
  · unfold identifier
    rw [next?_ended he, next?_ended (m.state_ended he)]
    exact .halt s _
  by_cases hk : t.kind = .ident
  · have hk' : (m.token t).kind = .ident := hk
    rw [m.state_push, identifier_push hk, identifier_push hk']
    exact .ok ⟨rfl, rfl, hs.tail⟩
  · have hk' : (m.token t).kind ≠ .ident := hk
    have hn {r : State} {u : Token} (h : u.kind ≠ .ident) :
        identifier (r.push u) = (r.push u).halt .expectedIdentifier := by
      simp [identifier, Option.filter, h]
    rw [m.state_push, hn hk, hn hk']
    exact .halt (s.push t) _

end Tokens

/-- A step with the token that has to end it. -/
theorem twin_upTo {α : Type} {m : Recast} {f : α → α} {s s' t : State} {v : α}
    {h₁ : t.ahead.length < s.ahead.length} {h₂ : (m.state t).ahead.length < s'.ahead.length}
    (ht : m.Respects t.ahead) (close : Bytes) :
    Twin m (SameStep m f) ((⟨v, t, h₁⟩ : Progress s α).upTo close)
      ((⟨f v, m.state t, h₂⟩ : Progress s' α).upTo close) :=
  (twin_expect ht close).step fun _ _ _ _ hr => .ok ⟨rfl, rfl, hr⟩

/-! Expressions -/

/-- The form is read in the same way before the change and after it. -/
def Stable (m : Recast) (f : Form) (s : State) : Prop :=
  m.Respects s.ahead →
    match f with
    | .primary => Twin m (SameStep m m.expr) (primary s) (primary (m.state s))
    | .arguments => Twin m (SameStep m m.exprs) (arguments s) (arguments (m.state s))
    | .argumentList => Twin m (SameStep m m.exprs) (argumentList s) (argumentList (m.state s))
    | .unary => Twin m (SameStep m m.expr) (unary s) (unary (m.state s))
    | .binary n => Twin m (SameStep m m.expr) (binary n s) (binary n (m.state s))
    | .chain n l => Twin m (SamePause m m.expr) (chain n l s) (chain n (m.expr l) (m.state s))
    | .assign => Twin m (SameStep m m.expr) (assign s) (assign (m.state s))

section Expr

variable {m} {s : State} (shorter : ∀ g s', s'.ahead.length < s.ahead.length → Stable m g s')
include shorter

private theorem stable_primary : Stable m .primary s := by
  intro hs
  rcases s.ended_or_push with he | ⟨t, s, rfl⟩
  · simp only
    unfold primary
    rw [next?_ended he, next?_ended (m.state_ended he)]
    exact .halt s _
  have hr : m.Respects s.ahead := hs.tail
  simp only
  unfold primary
  simp only [m.state_push, next?_push]
  refine .ite rfl ?_ ?_
  · refine Twin.step (shorter .assign { s with fresh := none } (s.length_lt_push t) hr) ?_
    intro x s₁ h₁ h₂ hr₁
    exact (twin_upTo hr₁ _).step fun x s₂ h₃ h₄ hr₂ => .ok ⟨rfl, rfl, hr₂⟩
  rw [show (m.token t).kind = t.kind from rfl]
  cases t.kind with
  | ident =>
    simp only
    rcases accept?_state m (ascii "(") { s with fresh := none } with
      ⟨ha, hb⟩ | ⟨t₁, s₁, h₁, h₂, ha, hb, hr₁⟩
    · replace hb : accept? (ascii "(") { m.state s with fresh := none } = none := hb
      simp only [ha, hb]
      simp only [m.state_locals, resolve_vars]
      cases resolve s.locals t with
      | error cause => exact .haltAt { s with fresh := none } t.pos cause
      | ok p => exact .ok ⟨rfl, rfl, hr⟩
    · replace hb : accept? (ascii "(") { m.state s with fresh := none } =
          some ⟨m.token t₁, m.state s₁, h₂⟩ := hb
      simp only [ha, hb]
      have hlt : s₁.ahead.length < (s.push t).ahead.length := Nat.lt_trans h₁ (s.length_lt_push t)
      refine Twin.step (shorter .arguments s₁ hlt (hr₁ hr)) ?_
      exact fun args s₂ h₃ h₄ hr₂ => .ok ⟨rfl, rfl, hr₂⟩
  | num => exact .ok ⟨rfl, rfl, hr⟩
  | _ => exact .halt (s.push t) _

private theorem stable_chain (n : Nat) (l : Expr) : Stable m (.chain n l) s := by
  intro hs
  simp only
  unfold chain
  rcases s.ended_or_push with he | ⟨t, s, rfl⟩
  · rw [next?_ended he, next?_ended (m.state_ended he)]
    exact .ok ⟨rfl, rfl, hs⟩
  simp only [m.state_push, next?_push, operator?_token]
  cases ho : operator? n t with
  | none => exact .ok ⟨rfl, rfl, hs⟩
  | some o =>
    obtain ⟨op, swap⟩ := o
    refine Twin.step (shorter (.binary n) s (s.length_lt_push t) hs.tail) ?_
    intro r s₁ h₁ h₂ hr₁
    have hlt : s₁.ahead.length < (s.push t).ahead.length := Nat.lt_trans h₁ (s.length_lt_push t)
    -- The flag of the operator is set before the rest of the level is read.
    have hst : { m.state s₁ with req := (m.state s₁).req.require op } =
        m.state { s₁ with req := s₁.req.require op } := by
      unfold Recast.state
      rw [hs t List.mem_cons_self n op swap ho s₁.req]
    have hc : ∀ e s', e = m.expr (operation swap t.pos op l r) →
        s' = m.state { s₁ with req := s₁.req.require op } →
        Twin m (SamePause m m.expr) (chain n (operation swap t.pos op l r)
          { s₁ with req := s₁.req.require op }) (chain n e s') := by
      rintro e s' rfl rfl
      exact shorter (.chain n _) _ hlt hr₁
    refine Twin.pause (hc _ _ (expr_operation m swap t.pos op l r) hst) ?_
    exact fun x s₂ h₃ h₄ hr₂ => .ok ⟨rfl, rfl, hr₂⟩

private theorem stable_unary (tighter : Stable m .primary s) : Stable m .unary s := by
  intro hs
  simp only
  unfold unary
  rcases s.ended_or_push with he | ⟨t, s, rfl⟩
  · rw [next?_ended he, next?_ended (m.state_ended he)]
    exact tighter hs
  have hr : m.Respects s.ahead := hs.tail
  simp only [m.state_push, next?_push]
  refine .ite rfl ?_ ?_
  · refine Twin.step (shorter .unary s (s.length_lt_push t) hr) ?_
    exact fun x s₁ h₁ h₂ hr₁ => .ok ⟨rfl, rfl, hr₁⟩
  rw [unary?_token]
  cases hu : unary? t with
  | none => exact tighter hs
  | some node =>
    refine Twin.step (shorter .unary s (s.length_lt_push t) hr) ?_
    refine fun x s₁ h₁ h₂ hr₁ => .ok ⟨?_, ?_, hr₁⟩
    · exact expr_of_unary? m hu t.pos x
    · have hl := inferDeref_vars m s₁.locals s₁.fresh (node t.pos x)
      rw [← expr_of_unary? m hu] at hl
      exact congrArg (fun locals => { m.state s₁ with locals }) hl

private theorem stable_binary_succ (n : Nat) (tighter : Stable m (.binary n) s) :
    Stable m (.binary (n + 1)) s := by
  intro hs
  simp only
  rw [binary, binary]
  refine Twin.step (tighter hs) fun l s₁ h₁ h₂ hr₁ => ?_
  refine Twin.pause (shorter (.chain n l) s₁ h₁ hr₁) ?_
  exact fun x s₂ h₃ h₄ hr₂ => .ok ⟨rfl, rfl, hr₂⟩

private theorem stable_assign (tighter : Stable m (.binary levels) s) : Stable m .assign s := by
  intro hs
  simp only
  unfold assign
  refine Twin.step (tighter hs) fun l s₁ h₁ h₂ hr₁ => ?_
  rcases accept?_state m (ascii "=") s₁ with ⟨ha, hb⟩ | ⟨t, s₂, h₃, h₄, ha, hb, hr₂⟩
  · simp only [ha, hb]
    exact .ok ⟨rfl, rfl, hr₁⟩
  · simp only [ha, hb]
    refine Twin.step (shorter (.binary levels) s₂ (Nat.lt_trans h₃ h₁) (hr₂ hr₁)) ?_
    refine fun r s₃ h₅ h₆ hr₃ => .ok ⟨rfl, ?_, hr₃⟩
    have hl := inferAssign_vars m s₃.locals s₁.fresh l r
    exact congrArg (fun locals => { m.state s₃ with locals }) hl

private theorem stable_argumentList (tighter : Stable m .assign s) : Stable m .argumentList s := by
  intro hs
  simp only
  unfold argumentList
  refine Twin.step (tighter hs) fun x s₁ h₁ h₂ hr₁ => ?_
  rcases accept?_state m (ascii ",") s₁ with ⟨ha, hb⟩ | ⟨t, s₂, h₃, h₄, ha, hb, hr₂⟩
  · simp only [ha, hb]
    exact .ok ⟨rfl, rfl, hr₁⟩
  · simp only [ha, hb]
    refine Twin.step (shorter .argumentList s₂ (Nat.lt_trans h₃ h₁) (hr₂ hr₁)) ?_
    exact fun xs s₃ h₅ h₆ hr₃ => .ok ⟨rfl, rfl, hr₃⟩

omit shorter in
private theorem stable_arguments (tighter : Stable m .argumentList s) : Stable m .arguments s := by
  intro hs
  simp only
  unfold arguments
  rcases accept?_state m (ascii ")") s with ⟨ha, hb⟩ | ⟨t, s₁, h₁, h₂, ha, hb, hr₁⟩
  · simp only [ha, hb]
    exact Twin.step (tighter hs) fun xs s₁ h₁ h₂ hr₁ => twin_upTo hr₁ _
  · simp only [ha, hb]
    exact .ok ⟨rfl, rfl, hr₁ hs⟩

omit shorter in
private theorem stable_binary_zero (tighter : Stable m .unary s) : Stable m (.binary 0) s := by
  intro hs
  simp only
  rw [binary, binary]
  exact tighter hs

end Expr

theorem stable (f : Form) (s : State) : Stable m f s := by
  refine ranked_induction Form.rank (fun f s shorter tighter => ?_) f s
  cases f with
  | primary => exact stable_primary shorter
  | arguments => exact stable_arguments (tighter .argumentList (by decide))
  | argumentList => exact stable_argumentList shorter (tighter .assign (by decide))
  | unary => exact stable_unary shorter (tighter .primary (by decide))
  | binary n =>
    cases n with
    | zero => exact stable_binary_zero (tighter .unary (by decide))
    | succ n => exact stable_binary_succ shorter n (tighter (.binary n) (Nat.lt_succ_self _))
  | chain n l => exact stable_chain shorter n l
  | assign => exact stable_assign shorter (tighter (.binary levels) (by decide))

end Grammar
end StackC
