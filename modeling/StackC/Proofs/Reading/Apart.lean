import StackC.Proofs.Reading.Tail
import StackC.Proofs.Tree.Parsed

/-! What a function is read as depends on its own tokens. What stands behind them, where the source
ends and what was read before make no difference. -/
namespace StackC.Grammar

open StackC.Derivation

/-! Expressions -/

/-- An expression is read in the same way wherever the tokens end. -/
theorem reads_stop {f : Form} {s s₁ : State} {xs : List Expr} (h : Reads f s xs s₁) (stop : Int) :
    Reads f { s with stop } xs { s₁ with stop } := by
  induction h with
  | @paren s s₁ t t₁ x opens inner closes ih =>
    exact .paren (s := { s with stop }) opens ih closes
  | @call s s₁ t t₁ args isName opens inner ih =>
    exact @Reads.call { s with stop } { s₁ with stop } t t₁ args isName opens ih
  | @name s t i locals fresh isName noCall known =>
    exact .name (s := { s with stop }) isName noCall known
  | @number s t isNumber => exact .number (s := { s with stop }) isNumber
  | @noArguments s t closes => exact .noArguments (s := { s with stop }) closes
  | arguments more inner closes ih => exact .arguments more ih closes
  | lastArgument only last ih => exact .lastArgument ih last
  | @moreArguments s s₁ s₂ t x xs first comma others ih₁ ih₂ =>
    exact @Reads.moreArguments { s with stop } { s₁ with stop } _ t x xs ih₁ comma ih₂
  | @plus s s₁ t x isPlus operand ih => exact .plus (s := { s with stop }) isPlus ih
  | @unary s s₁ t x node noPlus isOp operand ih =>
    exact @Reads.unary { s with stop } { s₁ with stop } t x node noPlus isOp ih
  | operand noUnary inner ih => exact .operand noUnary ih
  | tightest inner ih => exact .tightest ih
  | level left rest ih₁ ih₂ => exact .level ih₁ ih₂
  | endChain noOperator => exact .endChain noOperator
  | @chain s s₁ s₂ t n op swap l r x isOp right rest ih₁ ih₂ =>
    exact .chain (s := { s with stop }) isOp ih₁ ih₂
  | value inner noAssign ih => exact .value ih noAssign
  | @assign s s₁ s₂ t l r left eq right ih₁ ih₂ =>
    exact @Reads.assign { s with stop } { s₁ with stop } { s₂ with stop } t l r ih₁ eq ih₂

def Form.hasOperand : Form → Bool
  | .arguments | .chain .. => false
  | _ => true

/-- An operand forgets which local came last before it. -/
theorem reads_fresh {f : Form} {s s₁ : State} {xs : List Expr} (h : Reads f s xs s₁)
    (hf : f.hasOperand) (fresh : Option Nat) : Reads f { s with fresh } xs s₁ := by
  induction h with
  | @paren s s₁ t t₁ x opens inner closes ih =>
    exact .paren (s := { s with fresh }) opens inner closes
  | @call s s₁ t t₁ args isName opens inner ih =>
    exact .call (s := { s with fresh }) isName opens inner
  | @name s t i locals fresh' isName noCall known =>
    exact .name (s := { s with fresh }) isName noCall known
  | @number s t isNumber => exact .number (s := { s with fresh }) isNumber
  | noArguments | arguments | endChain | chain => cases hf
  | lastArgument only last ih => exact .lastArgument (ih rfl) last
  | moreArguments first comma others ih₁ ih₂ => exact .moreArguments (ih₁ rfl) comma others
  | @plus s s₁ t x isPlus operand ih => exact .plus (s := { s with fresh }) isPlus (ih rfl)
  | @unary s s₁ t x node noPlus isOp operand ih =>
    exact .unary (s := { s with fresh }) noPlus isOp (ih rfl)
  | operand noUnary inner ih => exact .operand noUnary (ih rfl)
  | tightest inner ih => exact .tightest (ih rfl)
  | level left rest ih₁ ih₂ => exact .level (ih₁ rfl) rest
  | value inner noAssign ih => exact .value (ih rfl) noAssign
  | assign left eq right ih₁ ih₂ => exact .assign (ih₁ rfl) eq right

/-! Statements -/

/-- The state before other tokens, with another end and another local as the last one. -/
def State.placed (s : State) (ahead : List Token) (stop : Int) (fresh : Option Nat) : State :=
  { s with ahead, stop, fresh }

def startsElse (toks : List Token) : Bool := toks.head?.any (·.is (ascii "else"))

theorem startsElse_append {u v : List Token} (h : startsElse u → startsElse v) (w : List Token) :
    startsElse (w ++ u) → startsElse (w ++ v) := by
  cases w with
  | nil => exact h
  | cons t w => exact id

/-- A step takes these tokens, and takes them in the same way whatever stands behind them and
whatever was read before. Only an `else` may not come to stand there. -/
def Apart (R : State → State → Prop) (w : List Token) (s s₁ : State) : Prop :=
  s.ahead = w ++ s₁.ahead ∧ ∀ u stop fresh, (startsElse u → startsElse s₁.ahead) →
    ∃ fresh', R (s.placed (w ++ u) stop fresh) (s₁.placed u stop fresh')

namespace Apart

variable {R R' : State → State → Prop} {s s₁ s₂ : State} {v w : List Token} {t : Token}

theorem comp (h : Apart R w s s₁) (h' : Apart R' v s₁ s₂) :
    Apart (fun a c => ∃ b, R a b ∧ R' b c) (w ++ v) s s₂ := by
  obtain ⟨hw, hr⟩ := h
  obtain ⟨hv, hr'⟩ := h'
  refine ⟨by rw [hw, hv, List.append_assoc], fun u stop fresh hu => ?_⟩
  obtain ⟨fresh₁, h₁⟩ := hr (v ++ u) stop fresh (hv ▸ startsElse_append hu v)
  obtain ⟨fresh₂, h₂⟩ := hr' u stop fresh₁ hu
  rw [List.append_assoc]
  exact ⟨fresh₂, _, h₁, h₂⟩

/-- A step that takes a token begins with the same one, wherever it is taken. -/
theorem imp (h : Apart R w s s₁) (hw : w ≠ [])
    (hr : ∀ a b : State, a.ahead.head? = s.ahead.head? → a.pos = s.pos → R a b → R' a b) :
    Apart R' w s s₁ := by
  obtain ⟨t, w, rfl⟩ := List.exists_cons_of_ne_nil hw
  obtain ⟨hs, h⟩ := h
  refine ⟨hs, fun u stop fresh hu => ?_⟩
  obtain ⟨fresh', h⟩ := h u stop fresh hu
  refine ⟨fresh', hr _ _ ?_ ?_ h⟩
  · rw [hs]
    rfl
  · simp only [State.pos, hs]
    rfl

theorem push (h : Apart R w s s₁) (hr : ∀ a b, R a b → R' (a.push t) b) :
    Apart R' (t :: w) (s.push t) s₁ := by
  obtain ⟨hs, h⟩ := h
  refine ⟨by rw [State.push_ahead, hs, List.cons_append], fun u stop fresh hu => ?_⟩
  obtain ⟨fresh', h⟩ := h u stop fresh hu
  exact ⟨fresh', hr _ _ h⟩

theorem pushTwo {t₁ : Token} (h : Apart R w s s₁)
    (hr : ∀ a b, R a b → R' ((a.push t₁).push t) b) :
    Apart R' (t :: t₁ :: w) ((s.push t₁).push t) s₁ := by
  have h₁ : Apart (fun a b => R' (a.push t) b) (t₁ :: w) (s.push t₁) s₁ := h.push hr
  exact h₁.push fun _ _ h => h

/-- A token is read on its own. -/
theorem token (hr : ∀ a : State, R (a.push t) a) : Apart R [t] (s.push t) s :=
  ⟨rfl, fun u stop fresh _ => ⟨fresh, hr (s.placed u stop fresh)⟩⟩

end Apart

/-- The tokens that may stand behind an expression of a statement. -/
def closers : List Bytes := [ascii ";", ascii ")", ascii ","]

section Steps

variable {s s₁ : State} {t : Token} {lit : Bytes}

/-- An expression and the token that ends it. -/
theorem apart_expr {x : Expr} (h : Reads .assign s [x] (s₁.push t)) (ht : t.is lit)
    (hl : lit ∈ closers) :
    ∃ w, w ≠ [] ∧ Apart (fun a b => Reads .assign a [x] (b.push t)) w s s₁ := by
  obtain ⟨w, hw, hr⟩ := exists_taken h
  refine ⟨w ++ [t], by simp, by simp [hw], fun u stop fresh _ => ⟨s₁.fresh, ?_⟩⟩
  have hslack : ∀ lit ∈ closers, reach .assign < slack lit := by decide
  have hu := hr (t :: u) (by rw [nextSlack_cons ht]; exact hslack lit hl)
  rw [List.append_assoc]
  exact reads_fresh (reads_stop hu stop) rfl fresh

theorem apart_declarator {inits : List Stmt} (h : ReadsDeclarator s inits (s₁.push t))
    (ht : t.is lit) (hl : lit ∈ closers) :
    ∃ w, w ≠ [] ∧ Apart (fun a b => ReadsDeclarator a inits (b.push t)) w s s₁ := by
  generalize hs : s₁.push t = s₂ at h
  cases h with
  | @bare s stars name areStars isName isNew notScratch noValue =>
    obtain ⟨s, rfl, rfl⟩ := State.eq_push_of_locals hs.symm
    refine ⟨stars ++ [name, t], by simp, by simp [State.pushAll], fun u stop fresh _ => ⟨fresh, ?_⟩⟩
    rw [List.append_assoc]
    exact .bare (s := (s.placed u stop fresh).push t) areStars isName isNew notScratch noValue
  | @init s s₂ stars name t₁ x areStars isName isNew notScratch eq value =>
    subst hs
    obtain ⟨w, -, hw, hr⟩ := apart_expr value ht hl
    refine ⟨stars ++ name :: t₁ :: w, by simp, ?_, fun u stop fresh hu => ?_⟩
    · have hw : s.ahead = w ++ s₁.ahead := hw
      simp [State.pushAll, hw]
    · obtain ⟨fresh', hr⟩ := hr u stop fresh hu
      rw [List.append_assoc]
      exact ⟨fresh',
        .init (s := s.placed (w ++ u) stop fresh) areStars isName isNew notScratch eq hr⟩

private theorem apart_declarators {inits : List Stmt} (h : ReadsDeclarators s inits s₁) :
    ∃ w, w ≠ [] ∧ Apart (ReadsDeclarators · inits ·) w s s₁ := by
  induction h with
  | last only ends =>
    obtain ⟨w, hw, hr⟩ := apart_declarator only ends (by decide)
    exact ⟨w, hw, hr.imp hw fun a b _ _ h => .last h ends⟩
  | more first comma rest ih =>
    obtain ⟨w, hw, hr⟩ := apart_declarator first comma (by decide)
    obtain ⟨v, -, hr'⟩ := ih
    refine ⟨w ++ v, by simp [hw], (hr.comp hr').imp (by simp [hw]) ?_⟩
    rintro a c - - ⟨b, h, h'⟩
    exact .more h comma h'

/-- The next token is the same if there is one. -/
theorem starts_of_head? {a : State} (h : a.ahead.head? = s.ahead.head?) (lit : Bytes) :
    a.starts lit = s.starts lit := by
  rw [State.starts, h, State.starts]

theorem apart_optional {close : Bytes} {x : Expr} (h : ReadsOptional close s x s₁)
    (hl : close ∈ closers) : ∃ w, w ≠ [] ∧ Apart (ReadsOptional close · x ·) w s s₁ := by
  cases h with
  | @absent s t closes => exact ⟨[t], by simp, .token fun a => .absent closes⟩
  | present notYet inner closes =>
    obtain ⟨w, hw, hr⟩ := apart_expr inner closes hl
    refine ⟨w, hw, hr.imp hw fun a b hh _ h => .present ?_ h closes⟩
    rw [starts_of_head? hh, notYet]

private theorem apart_first {first : Stmt} (h : ReadsFirst s first s₁) :
    ∃ w, w ≠ [] ∧ Apart (ReadsFirst · first ·) w s s₁ := by
  cases h with
  | @absent s t ends => exact ⟨[t], by simp, .token fun a => .absent ends⟩
  | present notYet inner ends =>
    obtain ⟨w, hw, hr⟩ := apart_expr inner ends (by decide)
    refine ⟨w, hw, hr.imp hw fun a b hh hp h => ?_⟩
    rw [← hp]
    exact .present (by rw [starts_of_head? hh, notYet]) h ends

/-- Statements are read from the tokens that they take. Only where no `else` follows a conditional
are there none. -/
theorem apart_stmt {f : StmtForm} {xs : List Stmt} (h : ReadsStmt f s xs s₁) :
    ∃ w, (f ≠ .otherwise → w ≠ []) ∧ Apart (ReadsStmt f · xs ·) w s s₁ := by
  induction h with
  | @ret s s₁ t t₁ x isReturn value ends =>
    obtain ⟨w, -, hr⟩ := apart_expr value ends (by decide)
    exact ⟨t :: w, by simp, hr.push fun a b h => .ret isReturn h ends⟩
  | @cond s s₁ s₂ s₃ t t₁ t₂ x yes no isIf opens test closes first second ih₁ ih₂ =>
    obtain ⟨w, -, hr⟩ := apart_expr test closes (by decide)
    obtain ⟨v, -, hr₁⟩ := ih₁
    obtain ⟨v', -, hr₂⟩ := ih₂
    refine ⟨t :: t₁ :: (w ++ (v ++ v')), by simp, (hr.comp (hr₁.comp hr₂)).pushTwo ?_⟩
    rintro a d ⟨b, h, c, h₁, h₂⟩
    exact .cond isIf opens h closes h₁ h₂
  | @loop s s₁ s₂ s₃ s₄ t t₁ first body test step isFor opens init cond inc inner ih =>
    obtain ⟨w, -, hr⟩ := apart_first init
    obtain ⟨w₁, -, hr₁⟩ := apart_optional cond (by decide)
    obtain ⟨w₂, -, hr₂⟩ := apart_optional inc (by decide)
    obtain ⟨w₃, -, hr₃⟩ := ih
    refine ⟨t :: t₁ :: (w ++ (w₁ ++ (w₂ ++ w₃))), by simp, ?_⟩
    refine (hr.comp (hr₁.comp (hr₂.comp hr₃))).pushTwo ?_
    rintro a e ⟨b, h, c, h₁, d, h₂, h₃⟩
    exact .loop isFor opens h h₁ h₂ h₃
  | @whileLoop s s₁ s₂ t t₁ t₂ x body isWhile opens test closes inner ih =>
    obtain ⟨w, -, hr⟩ := apart_expr test closes (by decide)
    obtain ⟨v, -, hr₁⟩ := ih
    refine ⟨t :: t₁ :: (w ++ v), by simp, (hr.comp hr₁).pushTwo ?_⟩
    rintro a c ⟨b, h, h₁⟩
    exact .whileLoop isWhile opens h closes h₁
  | @nested s s₁ t body opens inner ih =>
    obtain ⟨w, -, hr⟩ := ih
    exact ⟨t :: w, by simp, hr.push fun a b h => .nested opens h⟩
  | @empty s t ends => exact ⟨[t], by simp, .token fun a => .empty ends⟩
  | expr plain inner ends =>
    obtain ⟨w, hw, hr⟩ := apart_expr inner ends (by decide)
    refine ⟨w, fun _ => hw, hr.imp hw fun a b hh hp h => ?_⟩
    rw [← hp]
    -- The first token is among those taken, so it begins no other statement here either.
    exact .expr (fun lit hl => by rw [starts_of_head? hh, plain lit hl]) h ends
  | @noElse s noElse =>
    refine ⟨[], fun h => absurd rfl h, rfl, fun u stop fresh hu => ⟨fresh, .noElse ?_⟩⟩
    exact Bool.eq_false_iff.mpr fun h => Bool.false_ne_true (noElse.symm.trans (hu h))
  | @orElse s s₁ t x isElse inner ih =>
    obtain ⟨w, -, hr⟩ := ih
    exact ⟨t :: w, by simp, hr.push fun a b h => .orElse isElse h⟩
  | @endBlock s t closes => exact ⟨[t], by simp, .token fun a => .endBlock closes⟩
  | @declaration s s₁ s₂ t inits body isInt first rest ih =>
    obtain ⟨w, -, hr⟩ := apart_declarators first
    obtain ⟨v, -, hr₁⟩ := ih
    refine ⟨t :: (w ++ v), by simp, (hr.comp hr₁).push ?_⟩
    rintro a c ⟨b, h, h₁⟩
    exact .declaration isInt h h₁
  | item notEnd noInt first rest ih₁ ih₂ =>
    obtain ⟨w, hw, hr⟩ := ih₁
    obtain ⟨v, -, hr₁⟩ := ih₂
    have hne : w ++ v ≠ [] := by simp [hw]
    refine ⟨w ++ v, fun _ => hne, (hr.comp hr₁).imp hne ?_⟩
    rintro a c hh - ⟨b, h, h₁⟩
    exact .item (by rw [starts_of_head? hh, notEnd]) (by rw [starts_of_head? hh, noInt]) h h₁

end Steps

/-! Functions -/

/-- A function is read from its own tokens, before any others but an `else` and with any locals
known. -/
theorem apart_function {s s₁ : State} {f : Function} (h : ReadsFunction s f s₁) :
    ∃ w, w ≠ [] ∧ s.ahead = w ++ s₁.ahead ∧ ∀ u stop locals fresh, startsElse u = false →
      ∃ fresh', ReadsFunction { ahead := w ++ u, stop, locals, fresh, req := s.req } f
        { s₁ with ahead := u, stop, fresh := fresh' } := by
  cases h with
  | @intro s s₁ stars t name opening closing brace stmts isInt areStars isName opens closes begins
      inner =>
    obtain ⟨w, -, hw, hr⟩ := apart_stmt inner
    have hw : s.ahead = w ++ s₁.ahead := hw
    refine ⟨t :: (stars ++ name :: opening :: closing :: brace :: w), by simp, ?_, ?_⟩
    · simp [State.pushAll, hw]
    · intro u stop locals fresh hu
      obtain ⟨fresh', hr⟩ := hr u stop fresh fun h => absurd h (by simp [hu])
      rw [List.cons_append, List.append_assoc]
      exact ⟨fresh', .intro (s := { ahead := w ++ u, stop, locals, fresh, req := s.req }) isInt
        areStars isName opens closes begins hr⟩

/-- Functions come behind those already known, and their flags are added. -/
theorem extends_of_functions {known : List Function} {s : State} {p : Program}
    (h : ReadsFunctions known s p) :
    known <+: p.funcs ∧ ∀ op, s.req.needs op → p.req.needs op := by
  induction h with
  | done ended => exact ⟨List.prefix_rfl, fun _ h => h⟩
  | @more known s s₁ f p first isNew rest ih =>
    refine ⟨(List.prefix_append known [f]).trans ih.1, fun op hn => ih.2 op ?_⟩
    cases first with
    | intro isInt areStars isName opens closes begins inner =>
      exact (grows_of_readsStmt inner).2.2 op hn

/-- Each function of a program is read somewhere, from tokens behind those of the functions before
it. -/
theorem exists_reads_of_functions {known before after : List Function} {s : State} {p : Program}
    {f : Function} (h : ReadsFunctions known s p) (hp : p.funcs = known ++ (before ++ f :: after)) :
    ∃ w s₁ s₂, s.ahead = w ++ s₁.ahead ∧ ReadsFunction s₁ f s₂ ∧
      ∀ op, s₂.req.needs op → p.req.needs op := by
  induction h generalizing before with
  | done ended => simp at hp
  | @more known s s₁ g p first isNew rest ih =>
    obtain ⟨⟨others, ho⟩, hreq⟩ := extends_of_functions rest
    rw [hp, List.append_assoc, List.append_cancel_left_eq, List.singleton_append] at ho
    cases before with
    | nil =>
      cases ho
      exact ⟨[], s, s₁, rfl, first, hreq⟩
    | cons b before =>
      cases ho
      obtain ⟨w, -, hw, -⟩ := apart_function first
      have hp : p.funcs = known ++ [g] ++ (before ++ f :: after) := by simp [hp]
      obtain ⟨w', s₂, s₃, hs, hf, hn⟩ := ih hp
      exact ⟨w ++ w', s₂, s₃, by rw [hw, hs, List.append_assoc], hf, hn⟩

end StackC.Grammar
