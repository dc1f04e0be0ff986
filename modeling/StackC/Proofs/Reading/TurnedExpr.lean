import StackC.Proofs.Reading.Turned
import StackC.Proofs.Reading.Locals
import StackC.Proofs.Tree.Matching
import Mathlib.Data.Set.Insert

/-! Expressions in which comparisons are turned around are read as the same expressions, up to the
numbers of the variables, and bring the same names and the same flags. -/
namespace StackC.Derivation
open Grammar

/-- From one list of locals and flags to the next, these names and these flags are new or are there
again, and nothing else changes. -/
structure Gain (N : Set Bytes) (F : Set BinaryOp) (names names₁ : List Bytes)
    (req req₁ : Requirements) : Prop where
  kept : names <+: names₁
  names : ∀ name, name ∈ names₁ ↔ name ∈ names ∨ name ∈ N
  flags : ∀ op, req₁.needs op ↔ req.needs op ∨ op ∈ F

theorem Gain.trans {N N' : Set Bytes} {F F' : Set BinaryOp} {names names₁ names₂ : List Bytes}
    {req req₁ req₂ : Requirements} (h : Gain N F names names₁ req req₁)
    (h' : Gain N' F' names₁ names₂ req₁ req₂) :
    Gain (N ∪ N') (F ∪ F') names names₂ req req₂ where
  kept := h.kept.trans h'.kept
  names name := by rw [h'.names, h.names, Set.mem_union, or_assoc]
  flags op := by rw [h'.flags, h.flags, Set.mem_union, or_assoc]

/-- Between two states the same names and flags come up as between two others. -/
def Parallel (s s₁ s' s₁' : State) : Prop :=
  ∃ N F, Gain N F (localNames s) (localNames s₁) s.req s₁.req ∧
    Gain N F (localNames s') (localNames s₁') s'.req s₁'.req

namespace Parallel

variable {s s₁ s₂ s' s₁' s₂' : State}

/-- No names and no flags. -/
theorem of_eq (hn : localNames s₁ = localNames s) (hr : s₁.req = s.req)
    (hn' : localNames s₁' = localNames s') (hr' : s₁'.req = s'.req) : Parallel s s₁ s' s₁' := by
  refine ⟨∅, ∅, ?_, ?_⟩
  · rw [hn, hr]
    exact ⟨List.prefix_rfl, by simp, by simp⟩
  · rw [hn', hr']
    exact ⟨List.prefix_rfl, by simp, by simp⟩

theorem trans (h : Parallel s s₁ s' s₁') (h' : Parallel s₁ s₂ s₁' s₂') :
    Parallel s s₂ s' s₂' := by
  obtain ⟨N, F, hg, hg'⟩ := h
  obtain ⟨N', F', hg₁, hg₁'⟩ := h'
  exact ⟨N ∪ N', F ∪ F', hg.trans hg₁, hg'.trans hg₁'⟩

/-- What comes first in the one comes second in the other. -/
theorem crossed (h : Parallel s s₁ s₁' s₂') (h' : Parallel s₁ s₂ s' s₁') :
    Parallel s s₂ s' s₂' := by
  obtain ⟨N, F, hg, hg'⟩ := h
  obtain ⟨N', F', hg₁, hg₁'⟩ := h'
  refine ⟨N ∪ N', F ∪ F', hg.trans hg₁, ?_⟩
  rw [Set.union_comm N, Set.union_comm F]
  exact hg₁'.trans hg'

theorem require (s s' : State) (op : BinaryOp) :
    Parallel s { s with req := s.req.require op } s' { s' with req := s'.req.require op } := by
  have flags (req : Requirements) (o : BinaryOp) : (req.require op).needs o ↔
      req.needs o ∨ o ∈ {o | (Requirements.require {} op).needs o} := by
    cases op <;> cases o <;> simp [Requirements.require, Requirements.needs]
  have gain (s : State) : Gain ∅ {o | (Requirements.require {} op).needs o} (localNames s)
      (localNames { s with req := s.req.require op }) s.req (s.req.require op) :=
    ⟨List.prefix_rfl, by simp [localNames], flags s.req⟩
  exact ⟨_, _, gain s, gain s'⟩

theorem kept (h : Parallel s s₁ s' s₁') :
    localNames s <+: localNames s₁ ∧ localNames s' <+: localNames s₁' := by
  obtain ⟨N, F, hg, hg'⟩ := h
  exact ⟨hg.kept, hg'.kept⟩

/-- Expressions that were the same still are. -/
theorem mono (h : Parallel s s₁ s' s₁') {x x' : Expr}
    (hx : x.Matches (Named s.locals s'.locals) x') :
    x.Matches (Named s₁.locals s₁'.locals) x' :=
  hx.mono fun _ _ hi => hi.mono h.kept.1 h.kept.2

end Parallel

theorem Spans.nodup {a : Phrase} {s s₁ : State} (h : Spans a s s₁)
    (hs : (scratchName :: localNames s).Nodup) : (scratchName :: localNames s₁).Nodup := by
  obtain ⟨_, _, -, -, hb⟩ := h
  exact nodup_of_bindAll hb hs

theorem nodup_of_reads {f : Form} {s s₁ : State} {xs : List Expr} (h : Reads f s xs s₁)
    (hs : (scratchName :: localNames s).Nodup) : (scratchName :: localNames s₁).Nodup :=
  (spans_of_reads h).nodup hs

/-- The tokens ahead of the second state are those of the first, turned around. No more than `n` of
them are left. -/
structure Kin (n : Nat) (s s' : State) : Prop where
  tokens : Turned s.ahead s'.ahead
  names : (scratchName :: localNames s).Nodup
  size : s.ahead.length ≤ n

/-- What is read of the two states: the same expressions, with variables taken by name. -/
structure Keeps (s s₁ s' s₁' : State) (xs xs' : List Expr) : Prop where
  tokens : Turned s₁.ahead s₁'.ahead
  gains : Parallel s s₁ s' s₁'
  exprs : List.Forall₂ (Expr.Matches (Named s₁.locals s₁'.locals)) xs xs'

section Tokens

variable {s s' : State} {t : Token}

theorem Turned.exists_push (h : Turned (s.push t).ahead s'.ahead) :
    ∃ pos s₁', s' = State.push s₁' { t with pos } ∧
      (Turned s.ahead s₁'.ahead ∨ t.is (ascii "(") ∧ Facing s.ahead s₁'.ahead) := by
  obtain ⟨pos, v', hv, hc⟩ := Turned.cons_cases h
  refine ⟨pos, { s' with ahead := v' }, ?_, hc⟩
  rw [State.push, ← hv]

theorem Turned.next (h : Turned (s.push t).ahead s'.ahead) (ht : t.is (ascii "(") = false) :
    ∃ pos s₁', s' = State.push s₁' { t with pos } ∧ Turned s.ahead s₁'.ahead := by
  obtain ⟨pos, s₁', hs, hc | ⟨hp, -⟩⟩ := Turned.exists_push h
  · exact ⟨pos, s₁', hs, hc⟩
  · rw [ht] at hp
    cases hp

/-- Both sides are at their ends, or their next tokens are spelled alike. -/
theorem Turned.head_cases (h : Turned s.ahead s'.ahead) :
    (s.ahead = [] ∧ s'.ahead = []) ∨
      ∃ t pos s₁ s₁', s = State.push s₁ t ∧ s' = State.push s₁' { t with pos } := by
  rcases s.ended_or_push with he | ⟨t, s, rfl⟩
  · have hl := h.length_eq
    rw [he, List.length_nil, eq_comm, List.length_eq_zero_iff] at hl
    exact .inl ⟨he, hl⟩
  · obtain ⟨pos, s₁', rfl, -⟩ := Turned.exists_push h
    exact .inr ⟨t, pos, s, s₁', rfl, rfl⟩

theorem Turned.starts (h : Turned s.ahead s'.ahead) (lit : Bytes) :
    s.starts lit = s'.starts lit := by
  obtain ⟨he, he'⟩ | ⟨t, pos, s₁, s₁', rfl, rfl⟩ := h.head_cases
  · rw [State.starts, State.starts, he, he']
  · rfl

theorem Turned.noOperator (h : Turned s.ahead s'.ahead) {n : Nat} (hs : s.noOperator n) :
    s'.noOperator n := by
  obtain ⟨-, he⟩ | ⟨t, pos, s₁, s₁', rfl, rfl⟩ := h.head_cases
  · simp [State.noOperator, he]
  · exact (operator?_pos n t pos).trans hs

theorem Turned.noUnary (h : Turned s.ahead s'.ahead) (hs : s.noUnary) : s'.noUnary := by
  refine ⟨(h.starts _).symm.trans hs.1, ?_⟩
  obtain ⟨-, he⟩ | ⟨t, pos, s₁, s₁', rfl, rfl⟩ := h.head_cases
  · simp [he]
  · exact hs.2

end Tokens

/-- The forms are the same, with the same expression before them if there is one. -/
def SameForm (V : Int → Int → Prop) : Form → Form → Prop
  | .chain n l, f => ∃ l', f = .chain n l' ∧ l.Matches V l'
  | f, f' => f' = f

/-- Whatever is read of a state is read of all states with the same tokens turned around. -/
def Carries (n : Nat) (f : Form) (s : State) (xs : List Expr) (s₁ : State) : Prop :=
  ∀ f' s', SameForm (Named s.locals s'.locals) f f' → Kin n s s' →
    ∃ xs' s₁', Reads f' s' xs' s₁' ∧ Keeps s s₁ s' s₁' xs xs'

/-- One expression is carried to one. -/
theorem Carries.single {n : Nat} {f f' : Form} {s s₁ s' : State} {x : Expr}
    (h : Carries n f s [x] s₁) (hk : Kin n s s')
    (hf : SameForm (Named s.locals s'.locals) f f') :
    ∃ x' s₁', Reads f' s' [x'] s₁' ∧ Keeps s s₁ s' s₁' [x] [x'] := by
  obtain ⟨xs', s₁', hr, hx⟩ := h f' s' hf hk
  obtain ⟨x', ys, -, hys, rfl⟩ := List.forall₂_cons_left_iff.mp hx.exprs
  obtain rfl := List.forall₂_nil_left_iff.mp hys
  exact ⟨x', s₁', hr, hx⟩

theorem Kin.after {n : Nat} {f : Form} {s s₁ s' s₁' : State} {xs : List Expr} (hk : Kin n s s')
    (h : Reads f s xs s₁) (ht : Turned s₁.ahead s₁'.ahead) : Kin n s₁ s₁' where
  tokens := ht
  names := nodup_of_reads h hk.names
  size := (length_le_of_reads h).trans hk.size

theorem Kin.next {n : Nat} {s s' : State} {t : Token} (hk : Kin n (s.push t) s')
    (ht : t.is (ascii "(") = false) :
    ∃ pos s₁', s' = State.push s₁' { t with pos } ∧ Kin n s s₁' := by
  obtain ⟨pos, s₁', rfl, h⟩ := Turned.next hk.tokens ht
  exact ⟨pos, s₁', rfl, h, hk.names, Nat.le_of_succ_le hk.size⟩

namespace Keeps

variable {s s₁ s' s₂' : State} {xs xs' : List Expr}

theorem next {t : Token} (h : Keeps s (s₁.push t) s' s₂' xs xs') (ht : t.is (ascii "(") = false) :
    ∃ pos s₁', s₂' = State.push s₁' { t with pos } ∧ Keeps s s₁ s' s₁' xs xs' := by
  obtain ⟨pos, s₁', rfl, hr⟩ := Turned.next h.tokens ht
  exact ⟨pos, s₁', rfl, hr, h.gains, h.exprs⟩

theorem expr {x x' : Expr} (h : Keeps s s₁ s' s₂' [x] [x']) :
    x.Matches (Named s₁.locals s₂'.locals) x' :=
  (List.forall₂_cons.mp h.exprs).1

end Keeps

theorem matches_unary {V : Int → Int → Prop} {t : Token} {node : Int → Expr → Expr} {x x' : Expr}
    (h : unary? t = some node) (hx : x.Matches V x') (p p' : Int) :
    (node p x).Matches V (node p' x') := by
  unfold unary? at h
  repeat' split at h
  all_goals cases h
  · exact .neg hx
  · exact .addr hx
  · exact .deref hx

private theorem matches_operation {V : Int → Int → Prop} {l l' r r' : Expr} (hl : l.Matches V l')
    (hr : r.Matches V r') (swap : Bool) (p p' : Int) (op : BinaryOp) :
    (operation swap p op l r).Matches V (operation swap p' op l' r') := by
  cases swap with
  | false => exact .binary hl hr
  | true => exact .binary hr hl

/-- An operation with its operands in the other order, which the operator turns back. -/
theorem matches_operation_not {V : Int → Int → Prop} {l l' r r' : Expr} (hl : l.Matches V l')
    (hr : r.Matches V r') (swap : Bool) (p p' : Int) (op : BinaryOp) :
    (operation swap p op l r).Matches V (operation (!swap) p' op r' l') := by
  cases swap with
  | false => exact .binary hl hr
  | true => exact .binary hr hl

section Group

variable {n : Nat} (shorter : ∀ f s xs s₁, Reads f s xs s₁ → Carries n f s xs s₁)
include shorter

/-- An operand of a comparison is read at another place, if shorter readings carry over. -/
theorem carries_operand {s s₁ s' : State} {x : Expr} {w w' u u' : List Token}
    (h : Reads (.binary 2) s [x] s₁) (hw : s.ahead = w ++ s₁.ahead)
    (hs : (scratchName :: localNames s).Nodup) (hs' : s'.ahead = w' ++ u')
    (same : w.map Token.spelling = w'.map Token.spelling) (hu : Turned u u')
    (hf : 2 < nextSlack { s₁ with ahead := u }) (hn : (w ++ u).length ≤ n) :
    ∃ x' s₁', Reads (.binary 2) s' [x'] s₁' ∧ s₁'.ahead = u' ∧ Parallel s s₁ s' s₁' ∧
      x.Matches (Named s₁.locals s₁'.locals) x' := by
  have hk : Kin n { s with ahead := w ++ u } s' :=
    { tokens := by rw [hs']; exact .append same hu
      names := hs
      size := hn }
  obtain ⟨x', s₁', hr, hx⟩ := (shorter _ _ _ _ (reads_before h hw hf)).single hk rfl
  have hl : s₁'.ahead.length = u'.length := hx.tokens.length_eq.symm.trans hu.length_eq
  exact ⟨x', s₁', hr, ahead_of_length hr hs' hl, hx.gains, hx.expr⟩

/-- A comparison is read in the other order. -/
theorem carries_group (s s' : State) {s₁ : State} {x : Expr} (hn : s.ahead.length ≤ n)
    (hs : (scratchName :: localNames s).Nodup) (hf : Facing s.ahead s'.ahead)
    (h : Reads .assign s [x] s₁) :
    s₁.starts (ascii ")") ∧ ∃ x' s₁', Reads .assign s' [x'] s₁' ∧ Keeps s s₁ s' s₁' [x] [x'] := by
  obtain ⟨w, w', u, u', hw, hw', hx, hu⟩ := hf
  cases hx with
  | @intro a a' b b' g g' c c' o o' op swap left right isOp isTurned closes sameLeft sameRight
      same =>
  simp only [List.append_assoc, List.cons_append, List.nil_append] at hw hw'
  simp only [hw, List.length_append, List.length_cons] at hn
  obtain ⟨l, r, s₂, s₃, hl, h₂, hr, h₃, rfl, rfl⟩ := operands_of_reads left right isOp closes hw h
  have hc : State.starts { s₃ with req := s₃.req.require op } (ascii ")") := by
    rw [State.starts, h₃]
    exact closes
  have hend : Turned (c :: u) (c' :: u') := .cons same hu
  -- The right operand is read first, before the other operator and the left operand.
  have hg : nextSlack { s₃ with ahead := g' :: (a ++ c :: u) } = 3 :=
    nextSlack_of_operator? (s := { s₃ with ahead := a ++ c :: u })
      (Option.isSome_of_eq_some isTurned)
  have hs₂ := nodup_of_reads hl hs
  obtain ⟨r', s₁', hr', h₁', hpr, hmr⟩ := carries_operand shorter hr (h₂.trans (by rw [h₃])) hs₂ hw'
    sameRight (.cons rfl (.append sameLeft hend)) (by rw [hg]; decide) (by simp; omega)
  obtain ⟨s₁', rfl, hrest⟩ : ∃ s₂' : State, s₁' = s₂'.push g' ∧ s₂'.ahead = a' ++ c' :: u' :=
    ⟨{ s₁' with ahead := a' ++ c' :: u' }, by rw [State.push, ← h₁'], rfl⟩
  -- The left operand comes next, up to the closing parenthesis.
  have hg' : nextSlack { s₂.push g with ahead := c :: u } = 7 := nextSlack_cons closes u
  obtain ⟨l', s₂', hl', h₂', hpl, hml⟩ := carries_operand shorter hl (by rw [hw, ← h₂]; rfl) hs
    hrest sameLeft hend (by rw [hg']; decide) (by simp; omega)
  have hc' : s₂'.starts (ascii ")") := by
    obtain ⟨pos, rfl⟩ := exists_pos_of_spelling same
    rw [State.starts, h₂']
    exact closes
  have hm := matches_operation_not (hml.mono fun _ _ hi => hi.mono hpr.kept.1 List.prefix_rfl)
    (hmr.mono fun _ _ hi => hi.mono List.prefix_rfl hpl.kept.2) swap g.pos g'.pos op
  have hp : Parallel s s₃ s' s₂' := .crossed hpl hpr
  refine ⟨hc, _, _, reads_of_operands hr' isTurned hl' hc', ?_, hp.trans (.require _ _ _),
    .cons hm .nil⟩
  rwa [h₃, h₂']

/-- So is a call with a comparison as its argument. -/
theorem carries_groupArguments (s s' : State) {s₁ : State} {xs : List Expr}
    (hn : s.ahead.length ≤ n) (hs : (scratchName :: localNames s).Nodup)
    (hf : Facing s.ahead s'.ahead) (h : Reads .arguments s xs s₁) :
    ∃ xs' s₁', Reads .arguments s' xs' s₁' ∧ Keeps s s₁ s' s₁' xs xs' := by
  cases h with
  | noArguments closes =>
    rw [is_eq_false_of_beginsExpr hf.beginsExpr (by decide)] at closes
    cases closes
  | arguments more inner closes =>
  cases inner with
  | lastArgument only last =>
    obtain ⟨-, x', s₂', hr, hx⟩ := carries_group shorter s s' hn hs hf only
    obtain ⟨pos, s₁', rfl, hx₁⟩ := hx.next (Token.is_eq_false_of_is closes (by decide))
    have last' := (hx.tokens.starts _).symm.trans last
    exact ⟨_, _, .arguments (starts_of_reads hr (by decide)) (.lastArgument hr last') closes, hx₁⟩
  | moreArguments first comma others =>
    obtain ⟨hc, -⟩ := carries_group shorter s s' hn hs hf first
    rw [State.starts_push, Token.is_eq_false_of_is comma (by decide)] at hc
    cases hc

end Group

theorem gain_of_resolve {locals locals' : List Local} {t : Token} {i : Nat} {fresh : Option Nat}
    (h : resolve locals t = .ok (i, locals', fresh)) (req : Requirements) :
    Gain {t.lit} ∅ (locals.map Local.name) (locals'.map Local.name) req req := by
  obtain ⟨hf, rfl, -⟩ | ⟨-, -, rfl, rfl, -⟩ := resolve_cases h
  · have hm := List.mem_of_getElem? (getElem?_of_resolve h)
    refine ⟨List.prefix_rfl, fun name => ?_, by simp⟩
    rw [Set.mem_singleton_iff, or_iff_left_of_imp]
    rintro rfl
    exact hm
  · refine ⟨?_, fun name => by simp, by simp⟩
    rw [List.map_append]
    exact List.prefix_append _ _

/-- A name that has been read is not reserved. -/
theorem ne_scratchName_of_resolve {locals locals' : List Local} {t : Token} {i : Nat}
    {fresh : Option Nat} (h : resolve locals t = .ok (i, locals', fresh))
    (hn : scratchName ∉ locals.map Local.name) : t.lit ≠ scratchName := by
  obtain ⟨-, rfl, -⟩ | ⟨-, hs, -⟩ := resolve_cases h
  · rintro hs
    exact hn (hs ▸ List.mem_of_getElem? (getElem?_of_resolve h))
  · exact hs

private theorem carries_step {n : Nat}
    (shorter : ∀ m < n, ∀ f s xs s₁, Reads f s xs s₁ → Carries m f s xs s₁) {f : Form}
    {s s₁ : State} {xs : List Expr} (h : Reads f s xs s₁) : Carries n f s xs s₁ := by
  -- A turned comparison is read in another order, which only the bound on the length allows; all
  -- else is carried along the reading.
  induction h with
  | @paren s s₁ t t₁ x opens inner closes ih =>
    rintro f' s' rfl hk
    obtain ⟨pos, s', rfl, hc⟩ := Turned.exists_push hk.tokens
    obtain ⟨xs', s₂', hr, hx⟩ : ∃ xs' s₂', Reads .assign { s' with fresh := none } xs' s₂' ∧
        Keeps { s with fresh := none } (s₁.push t₁) { s' with fresh := none } s₂' [x] xs' := by
      rcases hc with hc | ⟨-, hc⟩
      · exact ih _ _ rfl ⟨hc, hk.names, Nat.le_of_succ_le hk.size⟩
      · obtain ⟨-, x', s₁', hr⟩ := carries_group (shorter _ hk.size) { s with fresh := none }
          { s' with fresh := none } (Nat.le_refl _) hk.names hc inner
        exact ⟨_, _, hr⟩
    obtain ⟨x', rfl⟩ := Reads.single hr (by simp)
    obtain ⟨pos', s₁', rfl, hx₁⟩ := hx.next (Token.is_eq_false_of_is closes (by decide))
    exact ⟨_, _, .paren opens hr closes, hx₁.tokens, hx₁.gains, hx₁.exprs⟩
  | @call s s₁ t t₁ args isName opens inner ih =>
    rintro f' s' rfl hk
    obtain ⟨pos, s', rfl, hk₁⟩ := hk.next (Token.is_eq_false_of_ident isName _)
    obtain ⟨pos', s', rfl, hc⟩ := Turned.exists_push hk₁.tokens
    obtain ⟨xs', s₁', hr, hx⟩ : ∃ xs' s₁', Reads .arguments { s' with fresh := none } xs' s₁' ∧
        Keeps { s with fresh := none } s₁ { s' with fresh := none } s₁' args xs' := by
      rcases hc with hc | ⟨-, hc⟩
      · exact ih _ _ rfl ⟨hc, hk.names, Nat.le_of_succ_le hk₁.size⟩
      · exact carries_groupArguments (shorter _ hk₁.size) { s with fresh := none }
          { s' with fresh := none } (Nat.le_refl _) hk.names hc inner
    exact ⟨_, _, .call isName opens hr, hx.tokens, hx.gains, .cons (.call hx.exprs) .nil⟩
  | @name s t i locals fresh isName noCall known =>
    rintro f' s' rfl hk
    obtain ⟨pos, s', rfl, hk₁⟩ := hk.next (Token.is_eq_false_of_ident isName _)
    have hne := ne_scratchName_of_resolve known (List.nodup_cons.mp hk.names).1
    obtain ⟨i', locals', fresh', known'⟩ := exists_resolve (t := { t with pos }) s'.locals hne
    have hi := (map_name_getLocal? _ _).trans (getElem?_of_resolve known)
    have hi' := (map_name_getLocal? _ _).trans (getElem?_of_resolve known')
    exact ⟨_, _, .name isName ((hk₁.tokens.starts _).symm.trans noCall) known', hk₁.tokens,
      ⟨_, _, gain_of_resolve known s.req, gain_of_resolve known' s'.req⟩,
      .cons (.var ⟨t.lit, hi, hi'⟩) .nil⟩
  | @number s t isNumber =>
    rintro f' s' rfl hk
    obtain ⟨pos, s', rfl, hk₁⟩ := hk.next (Token.is_eq_false_of_num isNumber _)
    exact ⟨_, _, .number isNumber, hk₁.tokens, .of_eq rfl rfl rfl rfl, .cons .num .nil⟩
  | @noArguments s t closes =>
    rintro f' s' rfl hk
    obtain ⟨pos, s', rfl, hk₁⟩ := hk.next (Token.is_eq_false_of_is closes (by decide))
    exact ⟨_, _, .noArguments closes, hk₁.tokens, .of_eq rfl rfl rfl rfl, .nil⟩
  | @arguments s s₁ t xs more inner closes ih =>
    rintro f' s' rfl hk
    obtain ⟨xs', s₂', hr, hx⟩ := ih _ s' rfl hk
    obtain ⟨pos, s₁', rfl, hx₁⟩ := hx.next (Token.is_eq_false_of_is closes (by decide))
    exact ⟨_, _, .arguments ((hk.tokens.starts _).symm.trans more) hr closes, hx₁⟩
  | @lastArgument s s₁ x only last ih =>
    rintro f' s' rfl hk
    obtain ⟨x', s₁', hr, hx⟩ := ih.single hk rfl
    exact ⟨_, _, .lastArgument hr ((hx.tokens.starts _).symm.trans last), hx⟩
  | @moreArguments s s₁ s₂ t x xs first comma others ih₁ ih₂ =>
    rintro f' s' rfl hk
    obtain ⟨x', s₁', hr, hx⟩ := ih₁.single hk rfl
    obtain ⟨pos, s₁', rfl, hk₁⟩ :=
      (hk.after first hx.tokens).next (Token.is_eq_false_of_is comma (by decide))
    obtain ⟨ys', s₂', hr', hy⟩ := ih₂ _ s₁' rfl hk₁
    exact ⟨_, _, .moreArguments hr comma hr', hy.tokens, hx.gains.trans hy.gains,
      .cons (hy.gains.mono hx.expr) hy.exprs⟩
  | @plus s s₁ t x isPlus operand ih =>
    rintro f' s' rfl hk
    obtain ⟨pos, s', rfl, hk₁⟩ := hk.next (Token.is_eq_false_of_is isPlus (by decide))
    obtain ⟨x', s₁', hr, hx⟩ := ih.single hk₁ rfl
    exact ⟨_, _, .plus isPlus hr, hx.tokens, hx.gains, hx.exprs⟩
  | @unary s s₁ t x node noPlus isOp operand ih =>
    rintro f' s' rfl hk
    obtain ⟨pos, s', rfl, hk₁⟩ := hk.next (is_eq_false_of_unary? isOp (by decide))
    obtain ⟨x', s₁', hr, hx⟩ := ih.single hk₁ rfl
    have hg : Parallel s₁ { s₁ with locals := inferDeref s₁.locals s₁.fresh (node t.pos x) } s₁'
        { s₁' with locals := inferDeref s₁'.locals s₁'.fresh (node pos x') } :=
      .of_eq (map_name_inferDeref _ _ _) rfl (map_name_inferDeref _ _ _) rfl
    have hm := hg.mono hx.expr
    exact ⟨_, _, .unary noPlus isOp hr, hx.tokens, hx.gains.trans hg,
      .cons (matches_unary isOp hm _ _) .nil⟩
  | @operand s s₁ x noUnary inner ih =>
    rintro f' s' rfl hk
    obtain ⟨x', s₁', hr, hx⟩ := ih.single hk rfl
    exact ⟨_, _, .operand (hk.tokens.noUnary noUnary) hr, hx⟩
  | @tightest s s₁ x inner ih =>
    rintro f' s' rfl hk
    obtain ⟨x', s₁', hr, hx⟩ := ih.single hk rfl
    exact ⟨_, _, .tightest hr, hx⟩
  | @level s s₁ s₂ n l x left rest ih₁ ih₂ =>
    rintro f' s' rfl hk
    obtain ⟨l', s₁', hr, hx⟩ := ih₁.single hk rfl
    obtain ⟨x', s₂', hr', hy⟩ := ih₂.single (hk.after left hx.tokens) ⟨l', rfl, hx.expr⟩
    exact ⟨_, _, .level hr hr', hy.tokens, hx.gains.trans hy.gains, hy.exprs⟩
  | @endChain s n l noOperator =>
    rintro f' s' ⟨l', rfl, hl⟩ hk
    exact ⟨_, _, .endChain (hk.tokens.noOperator noOperator), hk.tokens, .of_eq rfl rfl rfl rfl,
      .cons hl .nil⟩
  | @chain s s₁ s₂ t n op swap l r x isOp right rest ih₁ ih₂ =>
    rintro f' s' ⟨l', rfl, hl⟩ hk
    obtain ⟨pos, s', rfl, hk₁⟩ := hk.next (is_eq_false_of_operator? isOp (.inl rfl))
    obtain ⟨r', s₁', hr, hx⟩ := ih₁.single hk₁ rfl
    have hk₂ := hk₁.after right hx.tokens
    have hm := matches_operation (hx.gains.mono hl) hx.expr swap t.pos pos op
    have hk₃ : Kin _ { s₁ with req := s₁.req.require op } { s₁' with req := s₁'.req.require op } :=
      ⟨hk₂.tokens, hk₂.names, hk₂.size⟩
    obtain ⟨x', s₂', hr', hy⟩ := ih₂.single hk₃ ⟨_, rfl, hm⟩
    exact ⟨_, _, .chain ((operator?_pos n t pos).trans isOp) hr hr', hy.tokens,
      (hx.gains.trans (.require s₁ s₁' op)).trans hy.gains, hy.exprs⟩
  | @value s s₁ x inner noAssign ih =>
    rintro f' s' rfl hk
    obtain ⟨x', s₁', hr, hx⟩ := ih.single hk rfl
    exact ⟨_, _, .value hr ((hx.tokens.starts _).symm.trans noAssign), hx⟩
  | @assign s s₁ s₂ t l r left eq right ih₁ ih₂ =>
    rintro f' s' rfl hk
    obtain ⟨l', s₁', hr, hx⟩ := ih₁.single hk rfl
    obtain ⟨pos, s₁', rfl, hk₁⟩ :=
      (hk.after left hx.tokens).next (Token.is_eq_false_of_is eq (by decide))
    obtain ⟨r', s₂', hr', hy⟩ := ih₂.single hk₁ rfl
    have hg : Parallel s₂ { s₂ with locals := inferAssign s₂.locals s₁.fresh l r } s₂'
        { s₂' with locals := inferAssign s₂'.locals s₁'.fresh l' r' } :=
      .of_eq (map_name_inferAssign _ _ _ _) rfl (map_name_inferAssign _ _ _ _) rfl
    have hl := (hy.gains.trans hg).mono hx.expr
    have hr₁ := hg.mono hy.expr
    exact ⟨_, _, .assign hr eq hr', hy.tokens, (hx.gains.trans hy.gains).trans hg,
      .cons (.assign hl hr₁) .nil⟩

/-- What is read of an expression is read of it with its comparisons turned around. -/
theorem carries (n : Nat) {f : Form} {s s₁ : State} {xs : List Expr} (h : Reads f s xs s₁) :
    Carries n f s xs s₁ := by
  induction n using Nat.strongRecOn generalizing f s xs s₁ with
  | _ n ih => exact carries_step (fun m hm _ _ _ _ h => ih m hm h) h

end StackC.Derivation
