import StackC.Proofs.Reading.Basic

/-! Reading expressions as a relation between states, with one rule for each way in which a parse
succeeds, and its agreement with the parser. -/
namespace StackC.Grammar

/-- What may be read inside an expression. -/
inductive Form
  | primary
  | arguments
  | argumentList
  | unary
  /-- The first levels of binary operators. -/
  | binary (n : Nat)
  /-- The rest of a level behind its left operand. -/
  | chain (level : Nat) (l : Expr)
  | assign

/-- The node of an operator with its operands in the order of the tree. -/
def operation (swap : Bool) (pos : Int) (op : BinaryOp) (l r : Expr) : Expr :=
  if swap then .binary pos op r l else .binary pos op l r

/-- The next token, if there is one, is no operator of a level. -/
def State.noOperator (s : State) (level : Nat) : Prop := s.ahead.head?.bind (operator? level) = none

/-- The next token, if there is one, stands before no operand. -/
def State.noUnary (s : State) : Prop :=
  s.starts (ascii "+") = false ∧ s.ahead.head?.bind unary? = none

/-- From one state the form is read as these expressions, up to the other state. Only arguments
may be other than one. -/
inductive Reads : Form → State → List Expr → State → Prop
  | paren {s s₁ : State} {t t₁ : Token} {x : Expr} (opens : t.is (ascii "("))
      (inner : Reads .assign { s with fresh := none } [x] (s₁.push t₁))
      (closes : t₁.is (ascii ")")) :
      Reads .primary (s.push t) [x] s₁
  | call {s s₁ : State} {t t₁ : Token} {args : List Expr} (isName : t.kind = .ident)
      (opens : t₁.is (ascii "("))
      (inner : Reads .arguments { s with fresh := none } args s₁) :
      Reads .primary ((s.push t₁).push t) [.call t.pos t.lit args] { s₁ with fresh := none }
  | name {s : State} {t : Token} {i : Nat} {locals : List Local} {fresh : Option Nat}
      (isName : t.kind = .ident) (noCall : s.starts (ascii "(") = false)
      (known : resolve s.locals t = .ok (i, locals, fresh)) :
      Reads .primary (s.push t) [.var t.pos i] { s with locals, fresh }
  | number {s : State} {t : Token} (isNumber : t.kind = .num) :
      Reads .primary (s.push t) [.num t.pos t.val] { s with fresh := none }
  | noArguments {s : State} {t : Token} (closes : t.is (ascii ")")) :
      Reads .arguments (s.push t) [] s
  | arguments {s s₁ : State} {t : Token} {xs : List Expr} (more : s.starts (ascii ")") = false)
      (inner : Reads .argumentList s xs (s₁.push t)) (closes : t.is (ascii ")")) :
      Reads .arguments s xs s₁
  | lastArgument {s s₁ : State} {x : Expr} (only : Reads .assign s [x] s₁)
      (last : s₁.starts (ascii ",") = false) :
      Reads .argumentList s [x] s₁
  | moreArguments {s s₁ s₂ : State} {t : Token} {x : Expr} {xs : List Expr}
      (first : Reads .assign s [x] (s₁.push t)) (comma : t.is (ascii ","))
      (others : Reads .argumentList s₁ xs s₂) :
      Reads .argumentList s (x :: xs) s₂
  | plus {s s₁ : State} {t : Token} {x : Expr} (isPlus : t.is (ascii "+"))
      (operand : Reads .unary s [x] s₁) :
      Reads .unary (s.push t) [x] s₁
  | unary {s s₁ : State} {t : Token} {x : Expr} {node : Int → Expr → Expr}
      (noPlus : t.is (ascii "+") = false) (isOp : unary? t = some node)
      (operand : Reads .unary s [x] s₁) :
      Reads .unary (s.push t) [node t.pos x]
        { s₁ with locals := inferDeref s₁.locals s₁.fresh (node t.pos x) }
  | operand {s s₁ : State} {x : Expr} (noUnary : s.noUnary) (inner : Reads .primary s [x] s₁) :
      Reads .unary s [x] s₁
  | tightest {s s₁ : State} {x : Expr} (inner : Reads .unary s [x] s₁) :
      Reads (.binary 0) s [x] s₁
  | level {s s₁ s₂ : State} {n : Nat} {l x : Expr} (left : Reads (.binary n) s [l] s₁)
      (rest : Reads (.chain n l) s₁ [x] s₂) :
      Reads (.binary (n + 1)) s [x] s₂
  | endChain {s : State} {n : Nat} {l : Expr} (noOperator : s.noOperator n) :
      Reads (.chain n l) s [l] s
  | chain {s s₁ s₂ : State} {t : Token} {n : Nat} {op : BinaryOp} {swap : Bool} {l r x : Expr}
      (isOp : operator? n t = some (op, swap)) (right : Reads (.binary n) s [r] s₁)
      (rest : Reads (.chain n (operation swap t.pos op l r))
        { s₁ with req := s₁.req.require op } [x] s₂) :
      Reads (.chain n l) (s.push t) [x] s₂
  | value {s s₁ : State} {x : Expr} (inner : Reads (.binary levels) s [x] s₁)
      (noAssign : s₁.starts (ascii "=") = false) :
      Reads .assign s [x] s₁
  | assign {s s₁ s₂ : State} {t : Token} {l r : Expr}
      (left : Reads (.binary levels) s [l] (s₁.push t)) (eq : t.is (ascii "="))
      (right : Reads (.binary levels) s₁ [r] s₂) :
      Reads .assign s [.assign t.pos l r]
        { s₂ with locals := inferAssign s₂.locals s₁.fresh l r }

def Form.run (s : State) : Form → Except Halt (List Expr × State)
  | .primary => (Grammar.primary s).map fun p => ([p.value], p.state)
  | .arguments => (Grammar.arguments s).map fun p => (p.value, p.state)
  | .argumentList => (Grammar.argumentList s).map fun p => (p.value, p.state)
  | .unary => (Grammar.unary s).map fun p => ([p.value], p.state)
  | .binary n => (Grammar.binary n s).map fun p => ([p.value], p.state)
  | .chain n l => (Grammar.chain n l s).map fun p => ([p.value], p.state)
  | .assign => (Grammar.assign s).map fun p => ([p.value], p.state)

/-- Forms that may begin with each other have different ranks. -/
def Form.rank : Form → Nat
  | .primary => 0
  | .unary => 1
  | .binary n => n + 2
  | .chain .. => 0
  | .assign => 7
  | .argumentList => 8
  | .arguments => 9

/-- All that the parser of a form gives is read. -/
def Form.Sound (f : Form) (s : State) : Prop := ∀ xs s', f.run s = .ok (xs, s') → Reads f s xs s'

section Sound

variable {s : State} (shorter : ∀ g s', s'.ahead.length < s.ahead.length → Form.Sound g s')
include shorter

private theorem sound_primary : Form.primary.Sound s := by
  intro xs s' h
  rw [Form.run, Outcome.map_eq_ok] at h
  obtain ⟨p, h, hp⟩ := h
  cases hp
  rcases s.ended_or_push with he | ⟨t, s, rfl⟩
  · rw [Grammar.primary, next?_ended he] at h
    cases h
  rw [Grammar.primary] at h
  simp only [next?_push] at h
  split at h
  case isTrue ho =>
    obtain ⟨a, ha, h⟩ := Outcome.bind_eq_ok.mp h
    obtain ⟨q, hq, h⟩ := Outcome.bind_eq_ok.mp h
    obtain ⟨t₁, hs, hc, hv⟩ := upTo_eq_ok hq
    cases h
    have hi := shorter .assign { s with fresh := none } (by simp) _ _ (by rw [Form.run, ha]; rfl)
    rw [hs, ← hv] at hi
    exact .paren ho hi hc
  case isFalse ho =>
    split at h
    case h_1 hk =>
      split at h
      case h_1 s₂ h₂ hacc =>
        obtain ⟨⟨args, s₃, h₃⟩, ha, h⟩ := Outcome.bind_eq_ok.mp h
        cases h
        obtain ⟨hs, hp⟩ := accept?_eq_some hacc
        obtain ⟨s₄, rfl, rfl⟩ := State.eq_push_of_fresh hs
        have hi := shorter .arguments { s₄ with fresh := none }
          (by simp only [State.push_ahead, List.length_cons]; omega) _ _
          (by rw [Form.run, ha]; rfl)
        exact .call hk hp hi
      case h_2 hacc =>
        have hn : State.starts { s with fresh := none } (ascii "(") = false :=
          accept?_eq_none.mp hacc
        split at h
        · cases h
        · next hr =>
          cases h
          exact .name hk hn hr
    case h_2 hk =>
      cases h
      exact .number hk
    case h_3 => cases h

private theorem sound_chain (n : Nat) (l : Expr) : (Form.chain n l).Sound s := by
  intro xs s' h
  rw [Form.run, Outcome.map_eq_ok] at h
  obtain ⟨p, h, hp⟩ := h
  cases hp
  rcases s.ended_or_push with he | ⟨t, s, rfl⟩
  · rw [chain, next?_ended he] at h
    cases h
    exact .endChain (by simp [State.noOperator, he])
  rw [chain] at h
  simp only [next?_push] at h
  split at h
  case h_1 hn =>
    cases h
    exact .endChain hn
  case h_2 op swap ho =>
    obtain ⟨⟨r, s₂, h₂⟩, ha, h⟩ := Outcome.bind_eq_ok.mp h
    obtain ⟨q, hb, h⟩ := Outcome.bind_eq_ok.mp h
    cases h
    have hr := shorter (.binary n) s (by simp) _ _ (by rw [Form.run, ha]; rfl)
    have hc := shorter (.chain n (operation swap t.pos op l r))
      { s₂ with req := s₂.req.require op } (by simp; omega) _ _
      (by rw [Form.run, operation, hb]; rfl)
    exact .chain ho hr hc

private theorem sound_unary (tighter : Form.primary.Sound s) : Form.unary.Sound s := by
  intro xs s' h
  rw [Form.run, Outcome.map_eq_ok] at h
  obtain ⟨p, h, hp⟩ := h
  cases hp
  have operand (hn : s.noUnary) (h : primary s = .ok p) : Reads .unary s [p.value] p.state :=
    .operand hn (tighter _ _ (by rw [Form.run, h]; rfl))
  rcases s.ended_or_push with he | ⟨t, s, rfl⟩
  · rw [unary, next?_ended he] at h
    exact operand (by simp [State.noUnary, State.starts, he]) h
  rw [unary] at h
  simp only [next?_push] at h
  split at h
  case isTrue hp =>
    obtain ⟨⟨x, s₁, h₁⟩, ha, h⟩ := Outcome.bind_eq_ok.mp h
    cases h
    exact .plus hp (shorter .unary s (by simp) _ _ (by rw [Form.run, ha]; rfl))
  case isFalse hp =>
    split at h
    case h_1 node hn =>
      obtain ⟨⟨x, s₁, h₁⟩, ha, h⟩ := Outcome.bind_eq_ok.mp h
      cases h
      have hx := shorter .unary s (by simp) _ _ (by rw [Form.run, ha]; rfl)
      exact .unary (by simpa using hp) hn hx
    case h_2 hn =>
      exact operand ⟨by simpa using hp, hn⟩ h

private theorem sound_binary_succ (n : Nat) (tighter : (Form.binary n).Sound s) :
    (Form.binary (n + 1)).Sound s := by
  intro xs s' h
  rw [Form.run, Outcome.map_eq_ok] at h
  obtain ⟨p, h, hp⟩ := h
  cases hp
  rw [binary] at h
  obtain ⟨⟨l, s₁, h₁⟩, ha, h⟩ := Outcome.bind_eq_ok.mp h
  obtain ⟨q, hb, h⟩ := Outcome.bind_eq_ok.mp h
  cases h
  have hl := tighter _ _ (by rw [Form.run, ha]; rfl)
  exact .level hl (shorter (.chain n l) s₁ h₁ _ _ (by rw [Form.run, hb]; rfl))

private theorem sound_assign (tighter : (Form.binary levels).Sound s) : Form.assign.Sound s := by
  intro xs s' h
  rw [Form.run, Outcome.map_eq_ok] at h
  obtain ⟨p, h, hp⟩ := h
  cases hp
  rw [assign] at h
  obtain ⟨⟨l, s₁, h₁⟩, ha, h⟩ := Outcome.bind_eq_ok.mp h
  have hl := tighter _ _ (by rw [Form.run, ha]; rfl)
  simp only at h hl
  split at h
  case h_1 hacc =>
    cases h
    exact .value hl (accept?_eq_none.mp hacc)
  case h_2 t s₂ h₂ hacc =>
    obtain ⟨⟨r, s₃, h₃⟩, hb, h⟩ := Outcome.bind_eq_ok.mp h
    cases h
    obtain ⟨hs, he⟩ := accept?_eq_some hacc
    have hr := shorter (.binary levels) s₂ (by omega) _ _ (by rw [Form.run, hb]; rfl)
    subst hs
    have ha := Reads.assign hl he hr
    exact ha

private theorem sound_argumentList (tighter : Form.assign.Sound s) : Form.argumentList.Sound s := by
  intro xs s' h
  rw [Form.run, Outcome.map_eq_ok] at h
  obtain ⟨p, h, hp⟩ := h
  cases hp
  rw [argumentList] at h
  obtain ⟨⟨x, s₁, h₁⟩, ha, h⟩ := Outcome.bind_eq_ok.mp h
  have hx := tighter _ _ (by rw [Form.run, ha]; rfl)
  simp only at h hx
  split at h
  case h_1 t s₂ h₂ hacc =>
    obtain ⟨⟨xs, s₃, h₃⟩, hb, h⟩ := Outcome.bind_eq_ok.mp h
    cases h
    obtain ⟨hs, hc⟩ := accept?_eq_some hacc
    have hxs := shorter .argumentList s₂ (by omega) _ _ (by rw [Form.run, hb]; rfl)
    subst hs
    exact .moreArguments hx hc hxs
  case h_2 hacc =>
    cases h
    exact .lastArgument hx (accept?_eq_none.mp hacc)

end Sound

private theorem sound_arguments {s : State} (tighter : Form.argumentList.Sound s) :
    Form.arguments.Sound s := by
  intro xs s' h
  rw [Form.run, Outcome.map_eq_ok] at h
  obtain ⟨p, h, hp⟩ := h
  cases hp
  rw [arguments] at h
  split at h
  case h_1 t s₁ h₁ hacc =>
    cases h
    obtain ⟨hs, hc⟩ := accept?_eq_some hacc
    subst hs
    exact .noArguments hc
  case h_2 hacc =>
    obtain ⟨a, ha, h⟩ := Outcome.bind_eq_ok.mp h
    obtain ⟨t, hs, hc, hv⟩ := upTo_eq_ok h
    have hi := tighter _ _ (by rw [Form.run, ha]; rfl)
    rw [hs, ← hv] at hi
    exact .arguments (accept?_eq_none.mp hacc) hi hc

private theorem sound_binary_zero {s : State} (tighter : Form.unary.Sound s) :
    (Form.binary 0).Sound s := by
  intro xs s' h
  rw [Form.run, binary, Outcome.map_eq_ok] at h
  obtain ⟨p, h, hp⟩ := h
  cases hp
  exact .tightest (tighter _ _ (by rw [Form.run, h]; rfl))

/-- All that is parsed is read. -/
theorem Form.sound (f : Form) (s : State) : f.Sound s := by
  refine ranked_induction Form.rank (fun f s shorter tighter => ?_) f s
  cases f with
  | primary => exact sound_primary shorter
  | arguments => exact sound_arguments (tighter .argumentList (by decide))
  | argumentList => exact sound_argumentList shorter (tighter .assign (by decide))
  | unary => exact sound_unary shorter (tighter .primary (by decide))
  | binary n =>
    cases n with
    | zero => exact sound_binary_zero (tighter .unary (by decide))
    | succ n => exact sound_binary_succ shorter n (tighter (.binary n) (by simp [Form.rank]))
  | chain n l => exact sound_chain shorter n l
  | assign => exact sound_assign shorter (tighter (.binary levels) (by decide))

/-- All that is read is parsed. -/
theorem run_of_reads {f : Form} {s s' : State} {xs : List Expr} (h : Reads f s xs s') :
    f.run s = .ok (xs, s') := by
  induction h with
  | paren opens inner closes ih =>
    obtain ⟨h₁, ha⟩ := single_eq_ok ih
    rw [Form.run, primary]
    simp [opens, ha, upTo_push closes]
  | call isName opens inner ih =>
    obtain ⟨h₁, ha⟩ := list_eq_ok ih
    rw [Form.run, primary]
    simp [Token.is_eq_false_of_ident isName, isName, opens, ha]
  | @name s t i locals fresh isName noCall known =>
    have hacc : accept? (ascii "(") { s with fresh := none } = none := accept?_eq_none.mpr noCall
    rw [Form.run, primary]
    simp [Token.is_eq_false_of_ident isName, isName, hacc, known]
  | number isNumber =>
    rw [Form.run, primary]
    simp [Token.is_eq_false_of_num isNumber, isNumber]
  | noArguments closes =>
    rw [Form.run, arguments]
    simp [closes]
  | arguments more inner closes ih =>
    obtain ⟨h₁, ha⟩ := list_eq_ok ih
    rw [Form.run, arguments]
    simp [accept?_eq_none.mpr more, ha, upTo_push closes]
  | lastArgument only last ih =>
    obtain ⟨h₁, ha⟩ := single_eq_ok ih
    rw [Form.run, argumentList]
    simp [ha, accept?_eq_none.mpr last]
  | moreArguments first comma others ih₁ ih₂ =>
    obtain ⟨h₁, ha⟩ := single_eq_ok ih₁
    obtain ⟨h₂, hb⟩ := list_eq_ok ih₂
    rw [Form.run, argumentList]
    simp [ha, comma, hb]
  | plus isPlus operand ih =>
    obtain ⟨h₁, ha⟩ := single_eq_ok ih
    rw [Form.run, unary]
    simp [isPlus, ha]
  | unary noPlus isOp operand ih =>
    obtain ⟨h₁, ha⟩ := single_eq_ok ih
    rw [Form.run, unary]
    simp [noPlus, isOp, ha]
  | @operand s s₁ x noUnary inner ih =>
    obtain ⟨h₁, ha⟩ := single_eq_ok ih
    rw [Form.run, unary]
    rcases s.ended_or_push with he | ⟨t, s, rfl⟩
    · simp [next?_ended he, ha]
    · simp [ha, (show unary? t = none from noUnary.2),
        (show t.is (ascii "+") = false from noUnary.1)]
  | tightest inner ih =>
    obtain ⟨h₁, ha⟩ := single_eq_ok ih
    rw [Form.run, binary, ha]
    rfl
  | level left rest ih₁ ih₂ =>
    obtain ⟨h₁, ha⟩ := single_eq_ok ih₁
    obtain ⟨h₂, hb⟩ := pause_eq_ok ih₂
    rw [Form.run, binary]
    simp [ha, hb]
  | @endChain s n l noOperator =>
    rw [Form.run, chain]
    rcases s.ended_or_push with he | ⟨t, s, rfl⟩
    · simp [next?_ended he, Pause.stay]
    · simp [(show operator? _ t = none from noOperator), Pause.stay]
  | chain isOp right rest ih₁ ih₂ =>
    obtain ⟨h₁, ha⟩ := single_eq_ok ih₁
    obtain ⟨h₂, hb⟩ := pause_eq_ok ih₂
    rw [operation] at hb
    rw [Form.run, chain]
    simp [isOp, ha, hb]
  | value inner noAssign ih =>
    obtain ⟨h₁, ha⟩ := single_eq_ok ih
    rw [Form.run, assign]
    simp [ha, accept?_eq_none.mpr noAssign]
  | assign left eq right ih₁ ih₂ =>
    obtain ⟨h₁, ha⟩ := single_eq_ok ih₁
    obtain ⟨h₂, hb⟩ := single_eq_ok ih₂
    rw [Form.run, assign]
    simp [ha, eq, hb]

end StackC.Grammar
