import StackC.Proofs.Cursor.Expr
import StackC.Proofs.Reading.Places
import Mathlib.Data.List.TakeWhile

/-! A parse by index of any tokens ends, with calls no deeper than a multiple of the tokens. It uses
only what is there, sees nothing behind the first end mark, and gives what the parse from the tokens
ahead gives. -/
namespace StackC

open Grammar

namespace Cursor

variable {toks : List Token} {inside : Bool} {c : Cursor} {s : State} {t : Token} {d : Nat}

/-- A run of stars is passed. The type has as many more pointers. -/
theorem exists_stars {ahead : List Token} (h : Tracks toks inside c { s with ahead })
    (hd : ahead.length < d) (k : Nat) :
    ∃ c', Walk.pointers toks d (.stars k) c = some (.ok
        (.stars ((ahead.takeWhile (·.is (ascii "*"))).length + k), c')) ∧
      Tracks toks inside c' { s with ahead := ahead.dropWhile (·.is (ascii "*")) } := by
  obtain ⟨d, rfl⟩ := Nat.exists_eq_add_one_of_ne_zero (Nat.ne_zero_of_lt hd)
  induction ahead generalizing c d k with
  | nil =>
    refine ⟨c, ?_, h⟩
    rw [Walk.pointers, Walk.bind_ok (h.consume_ended rfl _), List.takeWhile_nil, List.length_nil,
      Nat.zero_add]
    rfl
  | cons t ahead ih =>
    have hp : Tracks toks inside c (State.push { s with ahead } t) := h
    have hd : ahead.length < d := Nat.lt_of_succ_lt_succ hd
    obtain ⟨d, rfl⟩ := Nat.exists_eq_add_one_of_ne_zero (Nat.ne_zero_of_lt hd)
    rw [Walk.pointers]
    by_cases ht : t.is (ascii "*")
    · have hb := hp.consume_push (ascii "*")
      rw [if_pos ht] at hb
      obtain ⟨c', hw, hc'⟩ := ih hp.next_push.2 (k + 1) d hd
      simp only [List.takeWhile_cons, List.dropWhile_cons, ht, if_true, List.length_cons]
      rw [Nat.succ_add_eq_add_succ, Walk.bind_ok hb]
      exact ⟨c', hw, hc'⟩
    · have hb := hp.consume_push (ascii "*")
      rw [if_neg ht] at hb
      simp only [List.takeWhile_cons, List.dropWhile_cons, ht, Bool.false_eq_true, if_false,
        List.length_nil, Nat.zero_add]
      rw [Walk.bind_ok hb]
      exact ⟨c, rfl, h⟩

theorem exists_pointers (h : Tracks toks inside c s) (hd : s.ahead.length < d) :
    ∃ c', Walk.pointers toks d .int c = some (.ok ((pointers s).value, c')) ∧
      Tracks toks inside c' (pointers s).state :=
  exists_stars (s := s) h hd 0

/-- An expression is read with as many calls as `followed` asks for. -/
theorem agrees_assign (h : Tracks toks true c s) (hd : 10 * s.ahead.length + 7 < d) :
    Agrees (Lands toks true) (Walk.assign toks d c) (assign s) :=
  followed toks d .assign s hd c h

private theorem agrees_initialValue (h : Tracks toks true c s) (hd : 10 * s.ahead.length < d)
    (name : Token) (i : Nat) :
    Agrees (Rests toks true) (Walk.initialValue toks d name i c) (initialValue name i s) := by
  unfold Walk.initialValue initialValue
  rcases h.consume_cases (ascii "=") with ⟨ha, hb⟩ | ⟨t, s₁, h₁, c₁, rfl, ha, hb, hc₁⟩
  · obtain ⟨t, hp, -⟩ := h.exists_peek
    rw [Walk.bind_ok hp, Walk.bind_ok hb, ha]
    exact .ok ⟨rfl, h⟩
  · rw [Walk.bind_ok h.peek_push, Walk.bind_ok hb, ha]
    refine Agrees.step (agrees_assign hc₁ (by omega)) ?_
    exact fun x s₂ h₂ c₂ _ hc₂ => .ok ⟨rfl, hc₂⟩

private theorem agrees_declarator (h : Tracks toks true c s) (hd : 10 * s.ahead.length < d) :
    Agrees (Lands toks true) (Walk.declarator toks d c) (declarator s) := by
  obtain ⟨c₀, hp, hc₀⟩ := exists_pointers h (d := d) (by omega)
  rw [Walk.declarator, declarator, Walk.bind_ok hp]
  refine Agrees.step (agrees_identifier hc₀) fun name s₁ h₁ c₁ _ hc₁ => ?_
  rw [Walk.bind_ok hc₁.locals_eq]
  simp only
  split
  · exact hc₁.agrees_haltAt name.pos _
  split
  · exact hc₁.agrees_haltAt name.pos _
  rw [Walk.bind_ok rfl]
  have hc₂ := hc₁.setLocals (declare s₁.locals name.lit (pointers s).value name.pos)
  have hp := (pointers s).notLonger
  have hd₁ : 10 * s₁.ahead.length < d := by omega
  refine (agrees_initialValue hc₂ hd₁ name s₁.locals.length).imp ?_
  rintro inits c₃ p ⟨rfl, hc₃⟩
  exact ⟨rfl, hc₃⟩

private theorem agrees_declarators (h : Tracks toks true c s) (hd : 10 * s.ahead.length + 1 < d) :
    Agrees (Lands toks true) (Walk.declarators toks d c) (declarators s) := by
  induction d generalizing c s with
  | zero => omega
  | succ d ih =>
  rw [Walk.declarators, declarators]
  refine Agrees.step (agrees_declarator h (by omega)) fun first s₁ h₁ c₁ _ hc₁ => ?_
  rcases hc₁.consume_cases (ascii ",") with ⟨ha, hb⟩ | ⟨t, s₂, h₂, c₂, rfl, ha, hb, hc₂⟩
  · rw [Walk.bind_ok hb]
    simp only [ha]
    rw [← bind_pure (Progress.upTo _ _)]
    exact agrees_upTo (p := ⟨first, s₁, h₁⟩) hc₁ _ fun _ s₂ h₂ c₂ hc₂ => .ok ⟨rfl, hc₂⟩
  · rw [Walk.bind_ok hb]
    simp only [ha]
    refine Agrees.step (ih hc₂ (by omega)) ?_
    exact fun more s₃ h₃ c₃ _ hc₃ => .ok ⟨rfl, hc₃⟩

theorem agrees_exprStmt (h : Tracks toks true c s) (hd : 10 * s.ahead.length + 7 < d) :
    Agrees (Lands toks true) (Walk.exprStmt toks d c) (exprStmt s) := by
  obtain ⟨t, hp, hpos⟩ := h.exists_peek
  rw [Walk.exprStmt, exprStmt, Walk.bind_ok hp, hpos]
  refine Agrees.step (agrees_assign h hd) fun x s₁ h₁ c₁ _ hc₁ => ?_
  exact agrees_upTo (p := ⟨x, s₁, h₁⟩) hc₁ _ fun _ s₂ h₂ c₂ hc₂ => .ok ⟨rfl, hc₂⟩

theorem agrees_parenExpr (h : Tracks toks true c s) (hd : 10 * s.ahead.length < d) :
    Agrees (Lands toks true) (Walk.parenExpr toks (Walk.assign toks d) c) (parenExpr s) := by
  rw [Walk.parenExpr, parenExpr]
  refine Agrees.expect h _ fun _ s₁ h₁ c₁ _ hc₁ => ?_
  refine Agrees.step (agrees_assign hc₁ (by omega)) fun x s₂ h₂ c₂ _ hc₂ => ?_
  exact agrees_upTo (p := ⟨x, s₂, h₂⟩) hc₂ _ fun _ s₃ h₃ c₃ hc₃ => .ok ⟨rfl, hc₃⟩

theorem agrees_optionalExpr (h : Tracks toks true c s) (hd : 10 * s.ahead.length + 7 < d)
    (close : Bytes) :
    Agrees (Lands toks true) (Walk.optionalExpr toks d close c) (optionalExpr close s) := by
  have read (ha : accept? close s = none) : Agrees (Lands toks true)
      ((Walk.assign toks d >>= fun x => Walk.expect toks close >>= fun _ => pure x) c)
      (optionalExpr close s) := by
    rw [optionalExpr, ha]
    refine Agrees.step (agrees_assign h hd) fun x s₁ h₁ c₁ _ hc₁ => ?_
    rw [← bind_pure (Progress.upTo _ _)]
    exact agrees_upTo (p := ⟨x, s₁, h₁⟩) hc₁ _ fun _ s₂ h₂ c₂ hc₂ => .ok ⟨rfl, hc₂⟩
  rw [Walk.optionalExpr]
  rcases s.ended_or_push with he | ⟨t, s, rfl⟩
  · obtain ⟨e, hp, hk, -⟩ := h.peek_ended he
    rw [Walk.bind_ok hp, Tracks.is_eq_false_of_end hk close]
    exact read (accept?_ended he)
  · rw [Walk.bind_ok h.peek_push]
    cases ht : t.is close with
    | false => exact read (by rw [accept?_push, ht]; rfl)
    | true =>
      rw [if_pos rfl, Walk.bind_ok (h.expect_push ht), optionalExpr, accept?_push, if_pos ht]
      exact .ok ⟨rfl, h.next_push.2⟩

private theorem agrees_firstStep (h : Tracks toks true c s) (hd : 10 * s.ahead.length + 7 < d) :
    Agrees (Lands toks true) (Walk.firstStep toks d c) (firstStep s) := by
  rw [Walk.firstStep, firstStep]
  rcases h.consume_cases (ascii ";") with ⟨ha, hb⟩ | ⟨t, s₁, h₁, c₁, rfl, ha, hb, hc₁⟩
  · rw [Walk.bind_ok hb, ha]
    exact agrees_exprStmt h hd
  · rw [Walk.bind_ok hb, ha]
    exact .ok ⟨rfl, hc₁⟩

private theorem agrees_forHead (h : Tracks toks true c s) (hd : 10 * s.ahead.length < d) :
    Agrees (Lands toks true) (Walk.forHead toks d c) (forHead s) := by
  rw [Walk.forHead, forHead]
  refine Agrees.expect h _ fun _ s₁ h₁ c₁ _ hc₁ => ?_
  refine Agrees.step (agrees_firstStep hc₁ (by omega)) fun first s₂ h₂ c₂ _ hc₂ => ?_
  refine Agrees.step (agrees_optionalExpr hc₂ (by omega) _) fun test s₃ h₃ c₃ _ hc₃ => ?_
  refine Agrees.step (agrees_optionalExpr hc₃ (by omega) _) ?_
  exact fun step s₄ h₄ c₄ _ hc₄ => .ok ⟨rfl, hc₄⟩

/-- A form is read in the same way by index, with calls that go `d` deep. -/
def FollowedStmt (toks : List Token) (d : Nat) (f : StmtForm) (s : State) : Prop :=
  ∀ c, Tracks toks true c s →
    match f with
    | .stmt => Agrees (Lands toks true) (Walk.stmt toks d c) (stmt s)
    | .otherwise => Agrees (Rests toks true) (Walk.otherwise toks d c) (otherwise s)
    | .block => Agrees (Lands toks true) (Walk.block toks d c) (block s)

section Stmt

variable (shorter : ∀ g s', s'.ahead.length < s.ahead.length → FollowedStmt toks d g s')
  (hd : 10 * s.ahead.length + 7 < d)
include shorter

private theorem followed_otherwise : FollowedStmt toks (d + 1) .otherwise s := by
  intro c hc
  simp only
  rw [Walk.otherwise, otherwise]
  rcases hc.consume_cases (ascii "else") with ⟨ha, hb⟩ | ⟨t, s₁, h₁, c₁, rfl, ha, hb, hc₁⟩
  · rw [Walk.bind_ok hb, ha]
    exact .ok ⟨rfl, hc⟩
  · rw [Walk.bind_ok hb, ha]
    refine (shorter .stmt s₁ h₁ c₁ hc₁).imp ?_
    rintro x c₂ p ⟨rfl, hc₂⟩
    exact ⟨rfl, hc₂⟩

include hd in
private theorem followed_stmt : FollowedStmt toks (d + 1) .stmt s := by
  intro c hc
  simp only
  rw [Walk.stmt, stmt]
  rcases s.ended_or_push with he | ⟨t, s, rfl⟩
  · obtain ⟨e, hp, hk, -⟩ := hc.peek_ended he
    rw [Walk.bind_ok hp, next?_ended he]
    simp only [Tracks.is_eq_false_of_end hk, Bool.false_eq_true, if_false]
    exact agrees_exprStmt hc hd
  obtain ⟨hn, hc₁⟩ := hc.next_push
  have hlt : s.ahead.length < (s.push t).ahead.length := s.length_lt_push t
  rw [Walk.bind_ok hc.peek_push]
  simp only [next?_push]
  split
  · rw [Walk.bind_ok hn]
    refine Agrees.step (agrees_assign hc₁ (by omega)) fun x s₁ h₁ c₂ _ hc₂ => ?_
    exact agrees_upTo (p := ⟨x, s₁, h₁⟩) hc₂ _ fun _ s₂ h₂ c₃ hc₃ => .ok ⟨rfl, hc₃⟩
  split
  · rw [Walk.bind_ok hn]
    refine Agrees.step (agrees_parenExpr hc₁ (by omega)) fun test s₁ h₁ c₂ _ hc₂ => ?_
    refine Agrees.step (shorter .stmt s₁ (Nat.lt_trans h₁ hlt) c₂ hc₂) fun yes s₂ h₂ c₃ _ hc₃ => ?_
    have hlt₂ : s₂.ahead.length < (s.push t).ahead.length := Nat.lt_trans h₂ (Nat.lt_trans h₁ hlt)
    refine (shorter .otherwise s₂ hlt₂ c₃ hc₃).bind ?_
    rintro no c₄ p - ⟨rfl, hc₄⟩
    exact .ok ⟨rfl, hc₄⟩
  split
  · rw [Walk.bind_ok hn]
    refine Agrees.step (agrees_forHead hc₁ (by omega)) fun head s₁ h₁ c₂ _ hc₂ => ?_
    refine Agrees.step (shorter .stmt s₁ (Nat.lt_trans h₁ hlt) c₂ hc₂) ?_
    exact fun body s₂ h₂ c₃ _ hc₃ => .ok ⟨rfl, hc₃⟩
  split
  · rw [Walk.bind_ok hn]
    refine Agrees.step (agrees_parenExpr hc₁ (by omega)) fun test s₁ h₁ c₂ _ hc₂ => ?_
    refine Agrees.step (shorter .stmt s₁ (Nat.lt_trans h₁ hlt) c₂ hc₂) ?_
    exact fun body s₂ h₂ c₃ _ hc₃ => .ok ⟨rfl, hc₃⟩
  split
  · rw [Walk.bind_ok hn]
    refine Agrees.step (shorter .block s hlt _ hc₁) ?_
    exact fun body s₁ h₁ c₂ _ hc₂ => .ok ⟨rfl, hc₂⟩
  split
  · rw [Walk.bind_ok hn]
    exact .ok ⟨rfl, hc₁⟩
  · exact agrees_exprStmt hc hd

include hd in
private theorem followed_block (tighter : FollowedStmt toks d .stmt s) :
    FollowedStmt toks (d + 1) .block s := by
  intro c hc
  simp only
  rw [Walk.block, block]
  rcases s.ended_or_push with he | ⟨t, s, rfl⟩
  · obtain ⟨e, hp, hk, hpos⟩ := hc.peek_ended he
    rw [Walk.bind_ok (hc.consume_ended he _), next?_ended he]
    simp only [Bool.false_eq_true, if_false]
    rw [Walk.bind_ok hp, hk]
    exact hc.agrees_halt hpos _
  have hk : (t.kind == .eof) = false := by simpa using hc.notEnd
  have hlt : s.ahead.length < (s.push t).ahead.length := s.length_lt_push t
  have hb := hc.consume_push (ascii "\x7d")
  simp only [next?_push]
  cases ht : t.is (ascii "\x7d") with
  | true =>
    rw [ht, if_pos rfl] at hb
    rw [Walk.bind_ok hb]
    exact .ok ⟨rfl, hc.next_push.2⟩
  | false =>
    rw [ht, if_neg (by decide)] at hb
    rw [Walk.bind_ok hb]
    simp only [Bool.false_eq_true, if_false]
    rw [Walk.bind_ok hc.peek_push]
    simp only [hk, Bool.false_eq_true, if_false]
    split
    · obtain ⟨hn, hc₁⟩ := hc.next_push
      rw [Walk.bind_ok hn]
      refine Agrees.step (agrees_declarators hc₁ (by omega)) fun inits s₁ h₁ c₂ _ hc₂ => ?_
      refine Agrees.step (shorter .block s₁ (Nat.lt_trans h₁ hlt) c₂ hc₂) ?_
      exact fun body s₂ h₂ c₃ _ hc₃ => .ok ⟨rfl, hc₃⟩
    · refine Agrees.step (tighter c hc) fun x s₁ h₁ c₁ _ hc₁ => ?_
      refine Agrees.step (shorter .block s₁ h₁ c₁ hc₁) ?_
      exact fun body s₂ h₂ c₂ _ hc₂ => .ok ⟨rfl, hc₂⟩

end Stmt

/-- A token makes up for all the calls that can be made before it is passed. -/
theorem followedStmt (toks : List Token) (d : Nat) (f : StmtForm) (s : State)
    (h : 10 * s.ahead.length + 8 + f.rank < d) : FollowedStmt toks d f s := by
  induction d generalizing f s with
  | zero => omega
  | succ d ih =>
    have shorter (g : StmtForm) (s' : State) (hs : s'.ahead.length < s.ahead.length) :
        FollowedStmt toks d g s' := by
      have hg : g.rank ≤ 1 := by cases g <;> decide
      exact ih g s' (by omega)
    cases f with
    | stmt => exact followed_stmt shorter (by omega)
    | otherwise => exact followed_otherwise shorter
    | block => exact followed_block shorter (by omega) (ih .stmt s (Nat.lt_of_succ_lt_succ h))

/-! Programs -/

private theorem agrees_function (h : Tracks toks false c s) (hd : 10 * s.ahead.length < d) :
    Agrees (Lands toks false) (Walk.function toks d c) (function s) := by
  rw [Walk.function, function]
  rcases s.ended_or_push with he | ⟨t, s, rfl⟩
  · obtain ⟨e, hp, hk, hpos⟩ := h.peek_ended he
    rw [Walk.bind_ok hp, Tracks.is_eq_false_of_end hk, accept?_ended he]
    exact h.agrees_halt hpos _
  rw [Walk.bind_ok h.peek_push, accept?_push]
  cases ht : t.is (ascii "int") with
  | false => exact h.agrees_halt rfl _
  | true =>
    have hlt : s.ahead.length < (s.push t).ahead.length := s.length_lt_push t
    obtain ⟨hn, hc₁⟩ := h.next_push
    obtain ⟨c₂, hp, hc₂⟩ := exists_pointers hc₁ (d := d) (by omega)
    simp only [if_true]
    rw [Walk.bind_ok hn, Walk.bind_ok hp]
    refine Agrees.step (agrees_identifier hc₂) fun name s₃ h₃ c₃ _ hc₃ => ?_
    have hc₄ : Tracks toks false { c₃ with scope := some [] } s₃ :=
      ⟨hc₃.ahead, hc₃.unmarked, Bool.noConfusion, hc₃.created, hc₃.req⟩
    rw [Walk.bind_ok rfl]
    -- The locals stay those of the new function up to its brace.
    refine Agrees.expect hc₄ _ fun _ s₄ h₄ c₅ hs₅ hc₅ => ?_
    refine Agrees.expect hc₅ _ fun _ s₅ h₅ c₆ hs₆ hc₆ => ?_
    refine Agrees.expect hc₆ _ fun brace s₆ h₆ c₇ hs₇ hc₇ => ?_
    have hc₈ : Tracks toks true c₇ { s₆ with locals := [] } :=
      ⟨hc₇.ahead, hc₇.unmarked, fun _ => hs₇.trans (hs₆.trans hs₅), hc₇.created, hc₇.req⟩
    have hl : s₆.ahead.length + 1 < s.ahead.length := by
      have hp := (pointers s).notLonger
      omega
    have hb : FollowedStmt toks d .block { s₆ with locals := [] } :=
      followedStmt toks d .block _ (by simp only [StmtForm.rank]; omega)
    refine Agrees.step (hb c₇ hc₈) ?_
    intro stmts s₇ h₇ c₈ _ hc₉
    rw [Walk.bind_ok hc₉.locals_eq]
    exact .ok ⟨rfl, hc₉.ahead, hc₉.unmarked, fun _ => hc₉.scope rfl, hc₉.created, hc₉.req⟩

/-- Where the tokens end, so does a program. -/
theorem finish_ended (h : Tracks toks inside c s) (he : s.ahead = []) (top : Bool)
    (funcs : List Function) : Walk.finish toks top funcs c =
      some (.ok ({ topLevel := top, funcs, req := s.req }, c)) := by
  obtain ⟨e, hp, hk, -⟩ := h.peek_ended he
  rw [Walk.finish, Walk.bind_ok hp, hk, ← h.req]
  rfl

/-- The functions up to the end. -/
theorem agrees_functions (known : List Function) (h : Tracks toks false c s)
    (hd : 10 * s.ahead.length + 1 < d) :
    Agrees (fun p _ q => p = q)
      ((Walk.functions toks d known >>= fun funcs => Walk.finish toks false funcs) c)
      (functions known s) := by
  induction d generalizing known c s with
  | zero => omega
  | succ d ih =>
  rw [Walk.functions, functions]
  rcases s.ended_or_push with he | ⟨t, s, rfl⟩
  · obtain ⟨e, hp, hk, hpos⟩ := h.peek_ended he
    have hn : s.ahead.isEmpty := by rw [he]; rfl
    rw [bind_assoc, Walk.bind_ok hp, hk, if_pos hn]
    simp only [beq_self_eq_true, if_true]
    rw [pure_bind, finish_ended h he]
    exact .ok rfl
  have hk : (t.kind == .eof) = false := by simpa using h.notEnd
  rw [bind_assoc, Walk.bind_ok h.peek_push, hk]
  simp only [Bool.false_eq_true, if_false]
  rw [bind_assoc]
  refine Agrees.step (agrees_function h (by omega)) fun f s₁ h₁ c₁ _ hc₁ => ?_
  simp only
  split
  · exact hc₁.agrees_haltAt f.pos _
  · exact ih (known ++ [f]) hc₁ (by omega)

private theorem agrees_topLevel (h : Tracks toks false c (s.push t)) (hl : s.locals = [])
    (hd : 10 * s.ahead.length + 9 < d) :
    Agrees (fun p _ q => p = q)
      ((Walk.topLevel toks d >>= fun f => Walk.finish toks true [f]) c) (topLevel t s) := by
  have h₁ : Tracks toks true { c with scope := some [] } (s.push t) :=
    ⟨h.ahead, h.unmarked, fun _ => hl ▸ rfl, h.created, h.req⟩
  obtain ⟨hn, h₂⟩ := h₁.next_push
  rw [Walk.topLevel, bind_assoc, Walk.bind_ok h.peek_push, bind_assoc, Walk.bind_ok rfl, bind_assoc,
    Walk.bind_ok hn, bind_assoc, topLevel]
  refine Agrees.step (followedStmt toks d .block s hd _ h₂) fun stmts s₁ _ c₁ _ hc₁ => ?_
  rw [bind_assoc, Walk.bind_ok hc₁.locals_eq, pure_bind]
  rcases s₁.ended_or_push with he | ⟨t₁, s₁, rfl⟩
  · rw [finish_ended hc₁ he]
    simp only [he, List.isEmpty_nil, if_true]
    exact .ok rfl
  · have hk : (t₁.kind != .eof) = true := by simpa using hc₁.notEnd
    rw [Walk.finish, Walk.bind_ok hc₁.peek_push, if_pos hk]
    exact hc₁.agrees_halt rfl _

/-- A program is read in the same way by index. -/
theorem agrees_program (h : Tracks toks false c s) (hl : s.locals = [])
    (hd : 10 * s.ahead.length + 1 < d) :
    Agrees (fun p _ q => p = q) (Walk.program toks d c) (match s.ahead with
      | t :: rest =>
        if t.is (ascii "\x7b") then topLevel t { s with ahead := rest } else functions [] s
      | [] => functions [] s) := by
  rw [Walk.program]
  rcases s.ended_or_push with he | ⟨t, s, rfl⟩
  · obtain ⟨e, hp, hk, -⟩ := h.peek_ended he
    rw [Walk.bind_ok hp, Tracks.is_eq_false_of_end hk, he]
    exact agrees_functions [] h hd
  · rw [Walk.bind_ok h.peek_push]
    simp only [State.push_ahead]
    split
    · refine agrees_topLevel h hl ?_
      rw [State.push_ahead, List.length_cons] at hd
      exact Nat.lt_of_le_of_lt (by simp only; omega) hd
    · exact agrees_functions [] h hd

end Cursor

namespace Token

/-- The tokens up to their first end mark. If there is none, one stands behind the last. -/
def closed (toks : List Token) : List Token :=
  beforeEnd toks ++ [(toks.find? (·.kind == .eof)).getD (.eof (lastEnd toks))]

/-- The end mark that a parse stops before. -/
theorem exists_end (toks : List Token) : ∃ e rest, terminated toks = beforeEnd toks ++ e :: rest ∧
    e.kind = .eof ∧ e.pos = endOffset toks ∧ closed toks = beforeEnd toks ++ [e] := by
  cases hf : toks.find? (·.kind == .eof) with
  | some e =>
    obtain ⟨he, before, rest, rfl, hb⟩ := List.find?_eq_some_iff_append.mp hf
    have he : e.kind = .eof := by simpa using he
    have hbefore : beforeEnd (before ++ e :: rest) = before :=
      beforeEnd_append_end (fun t ht => by simpa using hb t ht) he
    rw [closed, endOffset, hf, hbefore]
    unfold terminated
    split
    · exact ⟨e, rest, rfl, he, rfl, rfl⟩
    · exact ⟨e, rest ++ [_], by rw [List.append_assoc, List.cons_append], he, rfl, rfl⟩
  | none =>
    have hn : ∀ t ∈ toks, t.kind ≠ .eof := by simpa using hf
    have hbefore : beforeEnd toks = toks :=
      List.takeWhile_eq_self_iff.mpr fun t ht => by simpa using hn t ht
    have hlast : toks.getLast?.any (·.kind == .eof) = false := by
      cases hl : toks.getLast? with
      | none => rfl
      | some t => simpa using hn t (List.mem_of_getLast? hl)
    refine ⟨.eof (lastEnd toks), [], ?_, rfl, ?_, ?_⟩
    · rw [terminated, hlast, hbefore]
      rfl
    · rw [endOffset, hf, lastEnd]
      cases toks.getLast? <;> rfl
    · rw [closed, hf]
      rfl

theorem beforeEnd_closed (toks : List Token) : beforeEnd (closed toks) = beforeEnd toks := by
  obtain ⟨e, -, -, he, -, hc⟩ := exists_end toks
  rw [hc, beforeEnd_append_end (fun t ht => kind_of_mem_beforeEnd ht) he]

end Token

/-- Nothing behind the first end mark is read. -/
theorem Grammar.parse_closed (toks : List Token) (req : Requirements) :
    parse (Token.closed toks) req = parse toks req := by
  obtain ⟨e, rest, -, he, hpos, hc⟩ := Token.exists_end toks
  have hs : endOffset (Token.closed toks) = endOffset toks := by
    have hf : (Token.closed toks).find? (·.kind == .eof) = some e := by
      rw [hc, List.find?_append, List.find?_eq_none.mpr
        fun t ht => by simpa using Token.kind_of_mem_beforeEnd ht]
      simp [he]
    rw [endOffset, hf]
    exact hpos
  rw [parse, parse, Token.beforeEnd_closed, hs]

/-- By index, with calls that go ten deep for each token, the parse is the same. -/
theorem Walk.parse_eq (toks : List Token) (req : Option Requirements) {d : Nat}
    (hd : 10 * (Token.beforeEnd toks).length + 1 < d) :
    Walk.parse d toks req = some ((Grammar.parse toks (req.getD {})).mapError .halt) := by
  obtain ⟨e, rest, ht, he, hpos, -⟩ := Token.exists_end toks
  have start : Cursor.Tracks (Token.terminated toks) false
      { index := 0, scope := none, created := none, req := req.getD {} }
      (initial toks (req.getD {})) :=
    ⟨⟨e, rest, ht, he, hpos⟩, fun t => Token.kind_of_mem_beforeEnd, Bool.noConfusion, rfl, rfl⟩
  have agrees := Cursor.agrees_program start rfl hd
  change Cursor.Agrees _ _ (Grammar.parse toks (req.getD {})) at agrees
  unfold Walk.parse
  generalize Walk.program (Token.terminated toks) d _ = r at agrees ⊢
  generalize Grammar.parse toks (req.getD {}) = y at agrees ⊢
  cases agrees with
  | ok h =>
    subst h
    rfl
  | error h => rfl

/-- The parse by index recurses on its depth, so on given tokens it can be evaluated. -/
theorem Grammar.parse_of_walk {toks : List Token} {req : Requirements} {x : Except Halt Program}
    (h : Walk.parse (10 * (Token.beforeEnd toks).length + 2) toks (some req) =
      some (x.mapError .halt)) : parse toks req = x := by
  rw [Walk.parse_eq toks _ (by omega), Option.some.injEq, Option.getD_some] at h
  generalize parse toks req = y at h ⊢
  cases x <;> cases y <;> cases h <;> rfl

/-- What is asked of the program is evaluated with it. -/
theorem Grammar.map_parse_of_walk {α : Type} {toks : List Token} {req : Requirements}
    {f : Program → α} {a : α}
    (h : (Walk.parse (10 * (Token.beforeEnd toks).length + 2) toks (some req)).map (·.map f) =
      some (.ok a)) : (parse toks req).map f = .ok a := by
  rw [Walk.parse_eq toks _ (by omega), Option.map_some, Option.some.injEq, Option.getD_some] at h
  generalize parse toks req = y at h ⊢
  cases y <;> cases h
  rfl

/-- A parse of any tokens ends. By index, with calls that go ten deep for each token up to the first
end mark, it uses only tokens and locals that exist and gives what the parse from the tokens ahead
gives. Nothing behind the end mark is read, and an error is one of syntax at a token up to it. -/
theorem Walk.parse_agrees (toks : List Token) (req : Option Requirements) (extra : Nat) :
    Walk.parse (10 * (Token.closed toks).length + extra) toks req =
        some ((Grammar.parse toks (req.getD {})).mapError .halt) ∧
      Walk.parse (10 * (Token.closed toks).length + extra) (Token.closed toks) req =
        Walk.parse (10 * (Token.closed toks).length + extra) toks req ∧
      ∀ h, Grammar.parse toks (req.getD {}) = .error h →
        h.error.diagnostic.stage = .parse ∧ ∃ t ∈ Token.closed toks, t.pos = h.error.offset := by
  obtain ⟨e, -, -, he, hpos, hc⟩ := Token.exists_end toks
  have hl : 10 * (Token.beforeEnd toks).length + 1 < 10 * (Token.closed toks).length + extra := by
    rw [hc, List.length_append, List.length_singleton]
    omega
  refine ⟨Walk.parse_eq toks req hl, ?_, fun h hp => ?_⟩
  · rw [Walk.parse_eq toks req hl, Walk.parse_eq _ req (by rwa [Token.beforeEnd_closed]),
      Grammar.parse_closed]
  have keeps := keeps_parse toks (req.getD {})
  rw [hp] at keeps
  cases keeps with
  | error stage place =>
    refine ⟨stage, ?_⟩
    rw [hc]
    rcases place with ⟨t, ht, hplace⟩ | hplace
    · exact ⟨t, List.mem_append_left _ ht, hplace⟩
    · exact ⟨e, List.mem_append_right _ (List.mem_singleton_self e), hpos.trans hplace.symm⟩

end StackC
