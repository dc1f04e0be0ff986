import StackC.Proofs.Derivation.Sound
import StackC.Proofs.Tree.Proper

/-! What is parsed is proper. -/
namespace StackC.Grammar

/-- The second state comes behind the first: tokens are used up, and locals and routines are
added. -/
def Grows (s s' : State) : Prop :=
  s'.ahead <:+ s.ahead ∧ s.locals.length ≤ s'.locals.length ∧
    ∀ op, s.req.needs op → s'.req.needs op

namespace Grows

variable {s s₁ s₂ : State}

theorem refl (s : State) : Grows s s := ⟨List.suffix_rfl, Nat.le_refl _, fun _ h => h⟩

theorem trans (h₁ : Grows s s₁) (h₂ : Grows s₁ s₂) : Grows s s₂ :=
  ⟨h₂.1.trans h₁.1, Nat.le_trans h₁.2.1 h₂.2.1, fun op h => h₂.2.2 op (h₁.2.2 op h)⟩

theorem push (s : State) (t : Token) : Grows (s.push t) s :=
  ⟨List.suffix_cons t s.ahead, Nat.le_refl _, fun _ h => h⟩

/-- One more token before those used up. -/
theorem ofPush {t : Token} (h : Grows s s₁) : Grows (s.push t) s₁ := (push s t).trans h

/-- One more token used up. -/
theorem toPush {t : Token} (h : Grows s (s₁.push t)) : Grows s s₁ := h.trans (push s₁ t)

theorem pushAll (s : State) (ts : List Token) : Grows (s.pushAll ts) s :=
  ⟨List.suffix_append ts s.ahead, Nat.le_refl _, fun _ h => h⟩

theorem withLocals {locals : List Local} (h : Grows s s₁) (hl : s₁.locals.length ≤ locals.length) :
    Grows s { s₁ with locals } :=
  ⟨h.1, Nat.le_trans h.2.1 hl, h.2.2⟩

end Grows

theorem needs_require {req : Requirements} {op op' : BinaryOp} (h : req.needs op') :
    (req.require op).needs op' := by
  cases op <;> cases op' <;> simp_all [Requirements.require, Requirements.needs]

private theorem supports_require {n : Nat} {t : Token} {op : BinaryOp} {swap : Bool}
    (h : operator? n t = some (op, swap)) (req : Requirements) :
    (req.require op).Supports op := by
  match n with
  | 0 | 1 | 2 | 3 =>
    simp only [operator?] at h
    repeat' split at h
    all_goals cases h <;> simp [Requirements.Supports, Lowering.native?, Requirements.require,
      Requirements.needs]
  | n + 4 => cases h

theorem length_inferDeref (locals : List Local) (fresh : Option Nat) (x : Expr) :
    (inferDeref locals fresh x).length = locals.length := by
  rw [← List.length_map Local.name, Derivation.map_name_inferDeref, List.length_map]

theorem length_inferAssign (locals : List Local) (fresh : Option Nat) (l r : Expr) :
    (inferAssign locals fresh l r).length = locals.length := by
  rw [← List.length_map Local.name, Derivation.map_name_inferAssign, List.length_map]

theorem resolve_eq_ok {locals locals' : List Local} {t : Token} {i : Nat} {fresh : Option Nat}
    (h : resolve locals t = .ok (i, locals', fresh)) :
    i < locals'.length ∧ locals.length ≤ locals'.length := by
  unfold resolve at h
  split at h
  · next j hj =>
    cases h
    exact ⟨(List.findIdx?_eq_some_iff_findIdx_eq.mp hj).1, Nat.le_refl _⟩
  · split at h
    · cases h
    · cases h
      simp [declare]

theorem grows_of_reads {f : Form} {s s' : State} {xs : List Expr} (h : Reads f s xs s') :
    Grows s s' := by
  induction h with
  | paren opens inner closes ih => exact .ofPush ih.toPush
  | call isName opens inner ih => exact .ofPush (.ofPush ih)
  | @name s t i locals fresh isName noCall known =>
    exact .ofPush (.withLocals (.refl s) (resolve_eq_ok known).2)
  | @number s t isNumber => exact .ofPush (.refl s)
  | @noArguments s t closes => exact .ofPush (.refl s)
  | arguments more inner closes ih => exact ih.toPush
  | lastArgument only last ih => exact ih
  | moreArguments first comma others ih₁ ih₂ => exact ih₁.toPush.trans ih₂
  | plus isPlus operand ih => exact .ofPush ih
  | unary noPlus isOp operand ih =>
    exact .ofPush (ih.withLocals (Nat.le_of_eq (length_inferDeref _ _ _).symm))
  | operand noUnary inner ih => exact ih
  | tightest inner ih => exact ih
  | level left rest ih₁ ih₂ => exact ih₁.trans ih₂
  | @endChain s n l noOperator => exact .refl s
  | @chain s s₁ s₂ t n op swap l r x isOp right rest ih₁ ih₂ =>
    have hr : Grows s₁ { s₁ with req := s₁.req.require op } :=
      ⟨List.suffix_rfl, Nat.le_refl _, fun _ => needs_require⟩
    exact .ofPush (ih₁.trans (hr.trans ih₂))
  | value inner noAssign ih => exact ih
  | assign left eq right ih₁ ih₂ =>
    exact ih₁.toPush.trans (ih₂.withLocals (Nat.le_of_eq (length_inferAssign _ _ _ _).symm))

/-- The expression is proper for the locals and routines of a state. -/
def ProperAt (s : State) (x : Expr) : Prop := x.Proper s.locals.length s.req

theorem ProperAt.grows {s s' : State} {x : Expr} (h : ProperAt s x) (hg : Grows s s') :
    ProperAt s' x :=
  h.weaken hg.2.1 hg.2.2

theorem proper_of_unary? {count : Nat} {req : Requirements} {t : Token} {pos : Int} {x : Expr}
    {node : Int → Expr → Expr} (h : unary? t = some node) (hx : x.Proper count req) :
    (node pos x).Proper count req := by
  unfold unary? at h
  repeat' split at h
  all_goals cases h
  · exact .neg hx
  · exact .addr hx
  · exact .deref hx

private theorem proper_of_operation {count : Nat} {req : Requirements} {swap : Bool} {pos : Int}
    {op : BinaryOp} {l r : Expr} (hl : l.Proper count req) (hr : r.Proper count req)
    (ho : req.Supports op) : (operation swap pos op l r).Proper count req := by
  cases swap with
  | false => exact .binary ho hl hr
  | true => exact .binary ho hr hl

def Scanned (s : State) : Prop := ∀ t ∈ s.ahead, t.Scanned

theorem Scanned.grows {s s' : State} (h : Scanned s) (hg : Grows s s') : Scanned s' :=
  fun t ht => h t (hg.1.subset ht)

theorem Scanned.pop {s : State} {t : Token} (h : Scanned (s.push t)) : Scanned s :=
  h.grows (.push s t)

theorem Scanned.isName {s : State} {t : Token} (h : Scanned (s.push t)) (ht : t.kind = .ident) :
    Token.IsName t.lit :=
  (h t List.mem_cons_self).spelling ht

/-- What a form is given is proper. -/
def Form.Given (s : State) : Form → Prop
  | .chain _ l => ProperAt s l
  | _ => True

private theorem properAt_of_reads {f : Form} {s s' : State} {xs : List Expr} (h : Reads f s xs s')
    (hs : Scanned s) (hf : f.Given s) : ∀ x ∈ xs, ProperAt s' x := by
  induction h with
  | paren opens inner closes ih => exact ih hs.pop trivial
  | call isName opens inner ih =>
    rw [List.forall_mem_singleton]
    exact .call (hs.isName isName) (ih hs.pop.pop trivial)
  | @name s t i locals fresh isName noCall known =>
    rw [List.forall_mem_singleton]
    exact .var (resolve_eq_ok known).1
  | number isNumber =>
    rw [List.forall_mem_singleton]
    exact .num
  | noArguments closes => exact List.forall_mem_nil _
  | arguments more inner closes ih => exact ih hs trivial
  | lastArgument only last ih => exact ih hs trivial
  | moreArguments first comma others ih₁ ih₂ =>
    have hg := (grows_of_reads first).toPush
    have hx := List.forall_mem_singleton.mp (ih₁ hs trivial)
    rw [List.forall_mem_cons]
    exact ⟨ProperAt.grows hx (.ofPush (grows_of_reads others)), ih₂ (hs.grows hg) trivial⟩
  | plus isPlus operand ih => exact ih hs.pop trivial
  | @unary s s₁ t x node noPlus isOp operand ih =>
    have hx := List.forall_mem_singleton.mp (ih hs.pop trivial)
    rw [List.forall_mem_singleton, ProperAt, length_inferDeref]
    exact proper_of_unary? isOp hx
  | operand noUnary inner ih => exact ih hs trivial
  | tightest inner ih => exact ih hs trivial
  | level left rest ih₁ ih₂ =>
    have hl := List.forall_mem_singleton.mp (ih₁ hs trivial)
    exact ih₂ (hs.grows (grows_of_reads left)) hl
  | endChain noOperator =>
    rw [List.forall_mem_singleton]
    exact hf
  | @chain s s₁ s₂ t n op swap l r x isOp right rest ih₁ ih₂ =>
    have hg := grows_of_reads right
    have hr := List.forall_mem_singleton.mp (ih₁ hs.pop trivial)
    have hl : ProperAt s₁ l := ProperAt.grows hf (.ofPush hg)
    have hs₁ : Scanned s₁ := hs.pop.grows hg
    refine ih₂ hs₁ (proper_of_operation ?_ ?_ (supports_require isOp s₁.req))
    · exact hl.weaken (Nat.le_refl _) fun _ => needs_require
    · exact hr.weaken (Nat.le_refl _) fun _ => needs_require
  | value inner noAssign ih => exact ih hs trivial
  | assign left eq right ih₁ ih₂ =>
    have hg := (grows_of_reads left).toPush
    have hl := List.forall_mem_singleton.mp (ih₁ hs trivial)
    have hr := List.forall_mem_singleton.mp (ih₂ (hs.grows hg) trivial)
    rw [List.forall_mem_singleton, ProperAt, length_inferAssign]
    exact .assign (ProperAt.grows hl (.ofPush (grows_of_reads right))) hr

/-- One expression, read from scanned tokens. -/
theorem properAt_of_readsAssign {s s' : State} {x : Expr} (h : Reads .assign s [x] s')
    (hs : Scanned s) : ProperAt s' x :=
  List.forall_mem_singleton.mp (properAt_of_reads h hs trivial)

/-- One expression before a token. -/
theorem properAt_of_readsPush {s s' : State} {t : Token} {x : Expr}
    (h : Reads .assign s [x] (s'.push t)) (hs : Scanned s) : ProperAt s' x := by
  have hx := properAt_of_readsAssign h hs
  exact hx

theorem length_declare (locals : List Local) (name : Bytes) (type : Ty) (pos : Int) :
    (declare locals name type pos).length = locals.length + 1 := by
  simp [declare]

theorem grows_of_readsDeclarator {s s' : State} {inits : List Stmt}
    (h : ReadsDeclarator s inits s') : Grows s s' := by
  cases h with
  | @bare s stars name areStars isName isNew notScratch noValue =>
    refine (Grows.pushAll _ stars).trans (.ofPush (.withLocals (.refl s) ?_))
    rw [length_declare]
    exact Nat.le_succ _
  | @init s s₁ stars name t x areStars isName isNew notScratch eq value =>
    refine (Grows.pushAll _ stars).trans (.ofPush (.ofPush ?_))
    refine (Grows.withLocals (.refl s) ?_).trans (grows_of_reads value)
    rw [length_declare]
    exact Nat.le_succ _

theorem grows_of_readsDeclarators {s s' : State} {inits : List Stmt}
    (h : ReadsDeclarators s inits s') : Grows s s' := by
  induction h with
  | last only ends => exact (grows_of_readsDeclarator only).toPush
  | more first comma rest ih => exact (grows_of_readsDeclarator first).toPush.trans ih

theorem grows_of_readsOptional {close : Bytes} {s s' : State} {x : Expr}
    (h : ReadsOptional close s x s') : Grows s s' := by
  cases h with
  | absent closes => exact .push _ _
  | present notYet inner closes => exact (grows_of_reads inner).toPush

theorem grows_of_readsFirst {s s' : State} {first : Stmt} (h : ReadsFirst s first s') :
    Grows s s' := by
  cases h with
  | absent ends => exact .push _ _
  | present notYet inner ends => exact (grows_of_reads inner).toPush

theorem grows_of_readsStmt {f : StmtForm} {s s' : State} {xs : List Stmt}
    (h : ReadsStmt f s xs s') : Grows s s' := by
  induction h with
  | ret isReturn value ends => exact .ofPush (grows_of_reads value).toPush
  | cond isIf opens test closes first second ih₁ ih₂ =>
    exact .ofPush (.ofPush ((grows_of_reads test).toPush.trans (ih₁.trans ih₂)))
  | loop isFor opens init cond inc inner ih =>
    exact .ofPush (.ofPush ((grows_of_readsFirst init).trans ((grows_of_readsOptional cond).trans
      ((grows_of_readsOptional inc).trans ih))))
  | whileLoop isWhile opens test closes inner ih =>
    exact .ofPush (.ofPush ((grows_of_reads test).toPush.trans ih))
  | nested opens inner ih => exact .ofPush ih
  | empty ends => exact .push _ _
  | expr plain inner ends => exact (grows_of_reads inner).toPush
  | noElse noElse => exact .refl _
  | orElse isElse inner ih => exact .ofPush ih
  | endBlock closes => exact .push _ _
  | declaration isInt first rest ih => exact .ofPush ((grows_of_readsDeclarators first).trans ih)
  | item notEnd noInt first rest ih₁ ih₂ => exact ih₁.trans ih₂

/-- The statement is proper for the locals and routines of a state. -/
def StmtProperAt (s : State) (x : Stmt) : Prop := x.Proper s.locals.length s.req

theorem StmtProperAt.grows {s s' : State} {x : Stmt} (h : StmtProperAt s x) (hg : Grows s s') :
    StmtProperAt s' x :=
  h.weaken hg.2.1 hg.2.2

theorem properAt_of_readsDeclarator {s s' : State} {inits : List Stmt}
    (h : ReadsDeclarator s inits s') (hs : Scanned s) : ∀ x ∈ inits, StmtProperAt s' x := by
  cases h with
  | bare areStars isName isNew notScratch noValue => exact List.forall_mem_nil _
  | @init s s₁ stars name t x areStars isName isNew notScratch eq value =>
    have hs : Scanned s := (hs.grows (.pushAll _ stars)).pop.pop
    have hx := properAt_of_readsAssign value hs
    have hc : s.locals.length < s'.locals.length := by
      have hg := (grows_of_reads value).2.1
      rw [length_declare] at hg
      exact hg
    rw [List.forall_mem_singleton]
    exact .expr (.assign (.var hc) hx)

private theorem properAt_of_readsDeclarators {s s' : State} {inits : List Stmt}
    (h : ReadsDeclarators s inits s') (hs : Scanned s) : ∀ x ∈ inits, StmtProperAt s' x := by
  induction h with
  | last only ends =>
    have hx := properAt_of_readsDeclarator only hs
    exact hx
  | more first comma rest ih =>
    have hg := (grows_of_readsDeclarator first).toPush
    rw [List.forall_mem_append]
    refine ⟨fun x hx => ?_, ih (hs.grows hg)⟩
    exact (properAt_of_readsDeclarator first hs x hx).grows
      (.ofPush (grows_of_readsDeclarators rest))

theorem properAt_of_readsOptional {close : Bytes} {s s' : State} {x : Expr}
    (h : ReadsOptional close s x s') (hs : Scanned s) (hx : x.isAbsent = false) :
    ProperAt s' x := by
  cases h with
  | absent closes => cases hx
  | present notYet inner closes => exact properAt_of_readsPush inner hs

private theorem properAt_of_readsFirst {s s' : State} {first : Stmt} (h : ReadsFirst s first s')
    (hs : Scanned s) (hx : first.isAbsent = false) : StmtProperAt s' first := by
  cases h with
  | absent ends => cases hx
  | present notYet inner ends => exact .expr (properAt_of_readsPush inner hs)

/-- The statement is proper, or it is the missing second branch of a conditional. -/
def StmtForm.Allows (f : StmtForm) (s : State) (x : Stmt) : Prop :=
  (f = .otherwise ∧ x.isAbsent) ∨ StmtProperAt s x

theorem StmtForm.Allows.proper {f : StmtForm} {s : State} {x : Stmt} (h : f.Allows s x)
    (hf : f ≠ .otherwise ∨ x.isAbsent = false) : StmtProperAt s x := by
  rcases h with ⟨rfl, hx⟩ | h
  · rcases hf with hf | hf
    · exact absurd rfl hf
    · rw [hf] at hx
      cases hx
  · exact h

private theorem allows_of_readsStmt {f : StmtForm} {s s' : State} {xs : List Stmt}
    (h : ReadsStmt f s xs s') (hs : Scanned s) : ∀ x ∈ xs, f.Allows s' x := by
  induction h with
  | ret isReturn value ends =>
    rw [List.forall_mem_singleton]
    exact .inr (.ret (properAt_of_readsPush value hs.pop))
  | @cond s s₁ s₂ s₃ t t₁ t₂ x yes no isIf opens test closes first second ih₁ ih₂ =>
    have hx := properAt_of_readsPush test hs.pop.pop
    have hs₁ := hs.pop.pop.grows (grows_of_reads test).toPush
    have hg₁ := grows_of_readsStmt first
    have hg₂ := grows_of_readsStmt second
    have hy := (List.forall_mem_singleton.mp (ih₁ hs₁)).proper (.inl (by simp))
    have hn := List.forall_mem_singleton.mp (ih₂ (hs₁.grows hg₁))
    rw [List.forall_mem_singleton]
    exact .inr (.cond (hx.grows (hg₁.trans hg₂)) (hy.grows hg₂) fun h => hn.proper (.inr h))
  | loop isFor opens init cond inc inner ih =>
    have hg₁ := grows_of_readsFirst init
    have hg₂ := grows_of_readsOptional cond
    have hg₃ := grows_of_readsOptional inc
    have hg₄ := grows_of_readsStmt inner
    have hs₁ := hs.pop.pop.grows hg₁
    have hs₂ := hs₁.grows hg₂
    have hb := (List.forall_mem_singleton.mp (ih (hs₂.grows hg₃))).proper (.inl (by simp))
    rw [List.forall_mem_singleton]
    refine .inr (.loop (fun h => ?_) (fun h => ?_) (fun h => ?_) hb)
    · exact (properAt_of_readsFirst init hs.pop.pop h).grows (hg₂.trans (hg₃.trans hg₄))
    · exact (properAt_of_readsOptional cond hs₁ h).grows (hg₃.trans hg₄)
    · exact (properAt_of_readsOptional inc hs₂ h).grows hg₄
  | @whileLoop s s₁ s₂ t t₁ t₂ x body isWhile opens test closes inner ih =>
    have hx := properAt_of_readsPush test hs.pop.pop
    have hs₁ := hs.pop.pop.grows (grows_of_reads test).toPush
    have hb := (List.forall_mem_singleton.mp (ih hs₁)).proper (.inl (by simp))
    rw [List.forall_mem_singleton]
    refine .inr (.loop (fun h => ?_) (fun _ => hx.grows (grows_of_readsStmt inner))
      (fun h => ?_) hb)
    · cases h
    · cases h
  | nested opens inner ih =>
    rw [List.forall_mem_singleton]
    exact .inr (.block fun x hx => (ih hs.pop x hx).proper (.inl (by simp)))
  | empty ends =>
    rw [List.forall_mem_singleton]
    exact .inr (.block (List.forall_mem_nil _))
  | expr plain inner ends =>
    rw [List.forall_mem_singleton]
    exact .inr (.expr (properAt_of_readsPush inner hs))
  | noElse noElse =>
    rw [List.forall_mem_singleton]
    exact .inl ⟨rfl, rfl⟩
  | orElse isElse inner ih =>
    have hx := (List.forall_mem_singleton.mp (ih hs.pop)).proper (.inl (by simp))
    rw [List.forall_mem_singleton]
    exact .inr hx
  | endBlock closes => exact List.forall_mem_nil _
  | declaration isInt first rest ih =>
    have hg := grows_of_readsDeclarators first
    have hd := properAt_of_readsDeclarators first hs.pop
    rw [List.forall_mem_cons]
    refine ⟨.inr (.block fun x hx => ?_), ih (hs.pop.grows hg)⟩
    exact (hd x hx).grows (grows_of_readsStmt rest)
  | item notEnd noInt first rest ih₁ ih₂ =>
    have hx := (List.forall_mem_singleton.mp (ih₁ hs)).proper (.inl (by simp))
    rw [List.forall_mem_cons]
    exact ⟨.inr (hx.grows (grows_of_readsStmt rest)), ih₂ (hs.grows (grows_of_readsStmt first))⟩

/-- A function body that is read with no locals before it. -/
theorem proper_of_readsBlock {s s' : State} {f : Function} {b : Body}
    (h : ReadsStmt .block s b.stmts s') (hs : Scanned s) (hl : s.locals = [])
    (hf : f.body = some b ∧ f.locals = s'.locals) : f.Proper s'.req := by
  obtain ⟨w, o, -, -, hb⟩ := Derivation.spans_of_readsStmt h
  rw [Derivation.localNames, hl] at hb
  have hn := Derivation.nodup_of_bindAll hb (by simp)
  rw [Derivation.localNames, ← hf.2, List.nodup_cons] at hn
  refine ⟨⟨b, hf.1, fun x hx => ?_⟩, hn.2, hn.1⟩
  rw [hf.2]
  exact (allows_of_readsStmt h hs x hx).proper (.inl (by simp))

theorem proper_of_readsFunction {s s' : State} {f : Function} (h : ReadsFunction s f s')
    (hs : Scanned s) :
    Token.IsName f.name ∧ f.Proper s'.req ∧ Grows { s with locals := [] } s' := by
  cases h with
  | @intro s s₁ stars t name opening closing brace stmts isInt areStars isName opens closes begins
      inner =>
    have hs₁ := hs.pop.grows (.pushAll _ stars)
    have hs₂ : Scanned { s with locals := [] } := hs₁.pop.pop.pop.pop
    have hg := grows_of_readsStmt inner
    have ha : s.ahead <:+ t :: (stars ++ name :: opening :: closing :: brace :: s.ahead) :=
      ⟨t :: (stars ++ [name, opening, closing, brace]), by simp⟩
    refine ⟨hs₁.isName isName, ?_, hg.1.trans ha, hg.2.1, hg.2.2⟩
    exact proper_of_readsBlock (b := { pos := brace.pos, stmts }) inner hs₂ rfl ⟨rfl, rfl⟩

private theorem proper_of_readsFunctions {known : List Function} {s : State} {p : Program}
    (h : ReadsFunctions known s p) (hs : Scanned s) (named : ∀ f ∈ known, Token.IsName f.name)
    (distinct : (known.map Function.name).Nodup) (proper : ∀ f ∈ known, f.Proper s.req) :
    p.topLevel = false ∧ p.Proper := by
  induction h with
  | done ended => exact ⟨rfl, by simp, fun _ => named, distinct, proper⟩
  | @more known s s₁ f p first isNew rest ih =>
    obtain ⟨hn, hp, hg⟩ := proper_of_readsFunction first hs
    have hnew : ∀ g ∈ known, g.name ≠ f.name := by simpa [findFunction?] using isNew
    refine ih (fun t ht => hs t (hg.1.subset ht)) ?_ ?_ ?_
    · simpa only [List.forall_mem_append, List.forall_mem_singleton] using ⟨named, hn⟩
    · simpa [List.nodup_append, distinct] using hnew
    · rw [List.forall_mem_append, List.forall_mem_singleton]
      exact ⟨fun g hg' => (proper g hg').weaken hg.2.2, hp⟩

/-- A program that is parsed from scanned tokens is proper. -/
theorem proper_of_parse {src : Bytes} {toks : List Token} {req : Requirements} {p : Program}
    (hsrc : Token.scan src = .ok toks) (h : parse toks req = .ok p) : p.Proper := by
  obtain ⟨stop, -, hs⟩ := Token.scan_eq_ok hsrc
  have hs : Scanned (initial toks req) := hs
  have hl : (initial toks req).locals = [] := rfl
  rw [parse_eq_ok_iff] at h
  generalize initial toks req = i at h hs hl
  cases h with
  | @topLevel s s₁ t stmts opens inner ended =>
    have hf : Function.Proper s₁.req _ :=
      proper_of_readsBlock (b := { pos := t.pos, stmts })
        (f := ⟨[], .int, t.pos, s₁.locals, some { pos := t.pos, stmts }⟩) inner hs.pop hl ⟨rfl, rfl⟩
    exact ⟨fun _ => ⟨_, rfl⟩, by simp, by simp, by simpa using hf⟩
  | functions notBlock inner =>
    exact (proper_of_readsFunctions inner hs (by simp) (by simp) (by simp)).2

end StackC.Grammar
