import StackC.Proofs.Recast.Tree

/-! What is read from a part of a source differs from what is read from the whole in its offsets, by
the offset of the part. -/
namespace StackC.Recast

variable {m m' : Recast}

/-! A tree depends on how the offsets are changed, and not on the flags. -/

mutual

theorem expr_congr (h : m.pos = m'.pos) (x : Expr) : m.expr x = m'.expr x := by
  cases x with
  | absent => rfl
  | num | var => rw [expr, expr, h]
  | neg pos x | addr pos x | deref pos x => rw [expr, expr, h, expr_congr h x]
  | binary pos op l r | assign pos l r => rw [expr, expr, h, expr_congr h l, expr_congr h r]
  | call pos name args => rw [expr, expr, h, exprs_congr h args]

theorem exprs_congr (h : m.pos = m'.pos) (xs : List Expr) : m.exprs xs = m'.exprs xs := by
  cases xs with
  | nil => rfl
  | cons x xs => rw [exprs, exprs, expr_congr h x, exprs_congr h xs]

end

mutual

theorem stmt_congr (h : m.pos = m'.pos) (x : Stmt) : m.stmt x = m'.stmt x := by
  cases x with
  | absent => rfl
  | block pos body => rw [stmt, stmt, h, stmts_congr h body]
  | cond pos test yes no =>
    rw [stmt, stmt, h, expr_congr h, stmt_congr h yes, stmt_congr h no]
  | loop pos first test step body =>
    rw [stmt, stmt, h, stmt_congr h first, expr_congr h, expr_congr h, stmt_congr h body]
  | ret pos x | expr pos x => rw [stmt, stmt, h, expr_congr h]

theorem stmts_congr (h : m.pos = m'.pos) (xs : List Stmt) : m.stmts xs = m'.stmts xs := by
  cases xs with
  | nil => rfl
  | cons x xs => rw [stmts, stmts, stmt_congr h x, stmts_congr h xs]

end

theorem function_congr (h : m.pos = m'.pos) (f : Function) : m.function f = m'.function f := by
  have hb : m.body = m'.body := by
    funext b
    rw [body, body, h, stmts_congr h]
  rw [function, function, vars, vars, h, hb]

/-- The offsets in a text that stands so many bytes further on. -/
def moving (n : Nat) (req : Requirements → Requirements) : Recast where
  pos o := if o = SourceError.noOffset then o else o + n
  req
  pos_noOffset := if_pos rfl

theorem moving_pos (n : Nat) (req : Requirements → Requirements) {o : Int} (h : 0 ≤ o) :
    (moving n req).pos o = o + n := by
  refine if_neg ?_
  rw [SourceError.noOffset]
  omega

end StackC.Recast
