import StackC.Proofs.Derivation.Renaming

/-! What is read of an expression depends on the tokens that it takes, and not on those behind them,
as long as the next one does not carry on with it. -/
namespace StackC.Derivation
open Grammar

/-- A chain begins with one of its operators, or with what stands behind it. -/
theorem lt_nextSlack_of_chain {s s₁ : State} {n : Nat} {l : Expr} {xs : List Expr}
    (h : Reads (.chain n l) s xs s₁) (hf : n + 1 < nextSlack s₁) : n < nextSlack s := by
  cases h with
  | endChain => omega
  | chain isOp =>
    rw [nextSlack_of_operator? (Option.isSome_of_eq_some isOp)]
    omega

theorem nextSlack_cons {s : State} {t : Token} {lit : Bytes} (h : t.is lit) (u : List Token) :
    nextSlack { s with ahead := t :: u } = slack lit :=
  nextSlack_of_starts (s := { s with ahead := t :: u }) h

/-- A binary operator is not spelled like what ties tighter or looser than all of them. -/
theorem is_eq_false_of_operator? {n : Nat} {t : Token} {op : BinaryOp × Bool} {lit : Bytes}
    (h : operator? n t = some op) (hl : slack lit = 0 ∨ levels < slack lit) :
    t.is lit = false := by
  rw [← Bool.not_eq_true]
  intro ht
  have hs : nextSlack ((initial [] {}).push t) = slack lit :=
    nextSlack_of_starts (s := (initial [] {}).push t) ht
  rw [nextSlack_of_operator? (Option.isSome_of_eq_some h)] at hs
  have hn := lt_levels_of_operator? h
  omega

theorem is_eq_false_of_unary? {t : Token} {node : Int → Expr → Expr} {lit : Bytes}
    (h : unary? t = some node) (hl : lit ∉ [ascii "-", ascii "&", ascii "*"]) :
    t.is lit = false := by
  have of_is {text : Bytes} (ht : t.is text) (hm : text ∈ [ascii "-", ascii "&", ascii "*"]) :
      t.is lit = false :=
    Token.is_eq_false_of_is ht fun he => hl (he ▸ hm)
  unfold unary? at h
  repeat' split at h
  · exact of_is ‹_› (by decide)
  · exact of_is ‹_› (by decide)
  · exact of_is ‹_› (by decide)
  · cases h

/-- What takes a token still begins with it. -/
theorem head?_of_taken {s s₁ : State} {w : List Token} (hw : s.ahead = w ++ s₁.ahead)
    (hl : s₁.ahead.length < s.ahead.length) (u : List Token) :
    (w ++ u).head? = s.ahead.head? := by
  cases w with
  | nil => simp [hw] at hl
  | cons t w => rw [hw, List.cons_append, List.cons_append, List.head?_cons, List.head?_cons]

/-- The form is read in the same way from the tokens that were taken, whatever follows them. -/
theorem exists_taken {f : Form} {s s₁ : State} {xs : List Expr} (h : Reads f s xs s₁) :
    ∃ w, s.ahead = w ++ s₁.ahead ∧ ∀ u, reach f < nextSlack { s₁ with ahead := u } →
      Reads f { s with ahead := w ++ u } xs { s₁ with ahead := u } := by
  -- A part inside is followed by a token of the form itself, the last one by `u`, which begins
  -- with a token that ties too loosely to carry on with the form.
  induction h with
  | @paren s s₁ t t₁ x opens inner closes ih =>
    obtain ⟨w, hw, hr⟩ := ih
    refine ⟨t :: (w ++ [t₁]), by simp_all, fun u _ => ?_⟩
    have hr : Reads .assign { s with ahead := w ++ t₁ :: u, fresh := none } [x]
        (State.push { s₁ with ahead := u } t₁) :=
      hr (t₁ :: u) (by rw [nextSlack_cons closes]; decide)
    rw [List.cons_append, List.append_assoc]
    exact .paren (s := { s with ahead := w ++ t₁ :: u }) opens hr closes
  | @call s s₁ t t₁ args isName opens inner ih =>
    obtain ⟨w, hw, hr⟩ := ih
    exact ⟨t :: t₁ :: w, by simp_all, fun u hu =>
      .call (s := { s with ahead := w ++ u }) isName opens (hr u hu)⟩
  | @name s t i locals fresh isName noCall known =>
    exact ⟨[t], rfl, fun u hu => .name (s := { s with ahead := u }) isName
      (starts_eq_false (Nat.ne_of_gt hu)) known⟩
  | @number s t isNumber =>
    exact ⟨[t], rfl, fun u _ => .number (s := { s with ahead := u }) isNumber⟩
  | @noArguments s t closes =>
    exact ⟨[t], rfl, fun u _ => .noArguments (s := { s with ahead := u }) closes⟩
  | @arguments s s₁ t xs more inner closes ih =>
    obtain ⟨w, hw, hr⟩ := ih
    refine ⟨w ++ [t], by simp_all, fun u _ => ?_⟩
    have hr : Reads .argumentList { s with ahead := w ++ t :: u } xs
        (State.push { s₁ with ahead := u } t) :=
      hr (t :: u) (by rw [nextSlack_cons closes]; decide)
    rw [List.append_assoc]
    refine .arguments ?_ hr closes
    have hh := head?_of_taken hw ((spans_of_reads inner).length_lt rfl) (t :: u)
    rwa [State.starts, List.singleton_append, hh]
  | @lastArgument s s₁ x only last ih =>
    obtain ⟨w, hw, hr⟩ := ih
    exact ⟨w, hw, fun u hu => .lastArgument (hr u (Nat.lt_of_succ_lt hu))
      (starts_eq_false (Nat.ne_of_gt hu))⟩
  | @moreArguments s s₁ s₂ t x xs first comma others ih₁ ih₂ =>
    obtain ⟨w, hw, hr⟩ := ih₁
    obtain ⟨v, hv, hs⟩ := ih₂
    refine ⟨w ++ t :: v, by simp_all, fun u hu => ?_⟩
    have hr : Reads .assign { s with ahead := w ++ t :: (v ++ u) } [x]
        (State.push { s₁ with ahead := v ++ u } t) :=
      hr (t :: (v ++ u)) (by rw [nextSlack_cons comma]; decide)
    rw [List.append_assoc]
    exact .moreArguments hr comma (hs u hu)
  | @plus s s₁ t x isPlus operand ih =>
    obtain ⟨w, hw, hr⟩ := ih
    exact ⟨t :: w, by simp_all, fun u hu =>
      .plus (s := { s with ahead := w ++ u }) isPlus (hr u hu)⟩
  | @unary s s₁ t x node noPlus isOp operand ih =>
    obtain ⟨w, hw, hr⟩ := ih
    exact ⟨t :: w, by simp_all, fun u hu =>
      .unary (s := { s with ahead := w ++ u }) noPlus isOp (hr u hu)⟩
  | @operand s s₁ x noUnary inner ih =>
    obtain ⟨w, hw, hr⟩ := ih
    refine ⟨w, hw, fun u hu => .operand ?_ (hr u hu)⟩
    have hh := head?_of_taken hw ((spans_of_reads inner).length_lt rfl) u
    rwa [State.noUnary, State.starts, hh]
  | tightest inner ih =>
    obtain ⟨w, hw, hr⟩ := ih
    exact ⟨w, hw, fun u hu => .tightest (hr u hu)⟩
  | @level s s₁ s₂ n l x left rest ih₁ ih₂ =>
    obtain ⟨w, hw, hr⟩ := ih₁
    obtain ⟨v, hv, hs⟩ := ih₂
    refine ⟨w ++ v, by simp_all, fun u hu => ?_⟩
    have hs := hs u hu
    rw [List.append_assoc]
    exact .level (hr (v ++ u) (lt_nextSlack_of_chain hs hu)) hs
  | endChain noOperator =>
    exact ⟨[], rfl, fun u hu => .endChain (noOperator_of_slack (Nat.ne_of_gt hu))⟩
  | @chain s s₁ s₂ t n op swap l r x isOp right rest ih₁ ih₂ =>
    obtain ⟨w, hw, hr⟩ := ih₁
    obtain ⟨v, hv, hs⟩ := ih₂
    refine ⟨t :: (w ++ v), by simp_all, fun u hu => ?_⟩
    have hs := hs u hu
    have hn := lt_nextSlack_of_chain hs hu
    rw [List.cons_append, List.append_assoc]
    exact .chain (s := { s with ahead := w ++ (v ++ u) }) isOp (hr (v ++ u) hn) hs
  | value inner noAssign ih =>
    obtain ⟨w, hw, hr⟩ := ih
    exact ⟨w, hw, fun u hu => .value (hr u (Nat.lt_of_succ_lt hu))
      (starts_eq_false (Nat.ne_of_gt hu))⟩
  | @assign s s₁ s₂ t l r left eq right ih₁ ih₂ =>
    obtain ⟨w, hw, hr⟩ := ih₁
    obtain ⟨v, hv, hs⟩ := ih₂
    refine ⟨w ++ t :: v, by simp_all, fun u hu => ?_⟩
    have hr : Reads (.binary levels) { s with ahead := w ++ t :: (v ++ u) } [l]
        (State.push { s₁ with ahead := v ++ u } t) :=
      hr (t :: (v ++ u)) (by rw [nextSlack_cons eq]; decide)
    rw [List.append_assoc]
    exact .assign hr eq (hs u (Nat.lt_of_succ_lt hu))

/-- An expression begins with one of its own tokens. -/
theorem starts_of_reads {s s₁ : State} {xs : List Expr} {lit : Bytes} (h : Reads .assign s xs s₁)
    (hl : lit ∉ [ascii "(", ascii "+", ascii "-", ascii "*", ascii "&"]) :
    s.starts lit = false := by
  obtain ⟨t, s, rfl, ht⟩ := (spans_of_reads h).exists_first rfl
  exact is_eq_false_of_beginsExpr ht hl

section Taken

variable {f : Form} {s s₁ : State} {xs : List Expr} {w u : List Token}

theorem reads_before (h : Reads f s xs s₁) (hs : s.ahead = w ++ s₁.ahead)
    (hu : reach f < nextSlack { s₁ with ahead := u }) :
    Reads f { s with ahead := w ++ u } xs { s₁ with ahead := u } := by
  obtain ⟨v, hv, hr⟩ := exists_taken h
  obtain rfl : v = w := List.append_cancel_right (hv.symm.trans hs)
  exact hr u hu

theorem length_le_of_reads (h : Reads f s xs s₁) : s₁.ahead.length ≤ s.ahead.length := by
  obtain ⟨v, hv, -⟩ := exists_taken h
  simp [hv]

/-- What is left is known from its length. -/
theorem ahead_of_length (h : Reads f s xs s₁) (hs : s.ahead = w ++ u)
    (hl : s₁.ahead.length = u.length) : s₁.ahead = u := by
  obtain ⟨v, hv, -⟩ := exists_taken h
  exact List.append_inj_right' (hv.symm.trans hs) hl

end Taken

theorem reads_name {s : State} {t : Token} {i : Nat} {locals : List Local} {fresh : Option Nat}
    (isName : t.kind = .ident) (noCall : s.starts (ascii "(") = false)
    (known : resolve s.locals t = .ok (i, locals, fresh)) :
    Reads .unary (s.push t) [.var t.pos i] { s with locals, fresh } :=
  .operand (noUnary_of_first (by simp [Rule.first, isName])) (.name isName noCall known)

/-- An operand is an expression if nothing carries on with it. -/
theorem reads_of_unary {s s₁ : State} {x : Expr} (h : Reads .unary s [x] s₁)
    (hs : 5 < nextSlack s₁) : Reads .assign s [x] s₁ := by
  have stops {n : Nat} {l : Expr} (hn : n < 4) : Reads (.chain n l) s₁ [l] s₁ :=
    .endChain (noOperator_of_slack (by omega))
  have noAssign : s₁.starts (ascii "=") = false := starts_eq_false (Nat.ne_of_gt hs)
  have hx := Reads.level (.level (.tightest h) (stops (by decide))) (stops (by decide))
  exact .value (.level (.level hx (stops (by decide))) (stops (by decide))) noAssign

end StackC.Derivation
