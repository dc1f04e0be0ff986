import StackC.Proofs.Reading.Basic

/-! The headers of `while` loops written as headers of `for` loops. -/
namespace StackC.Token

/-- A place in a token list, seen from the headers of `while` loops. -/
inductive Place
  | outside
  /-- Before the parenthesis that opens a header. -/
  | opening
  /-- Inside a header and this many more pairs of parentheses. -/
  | inside (depth : Nat)

def semicolon (pos : Int) : Token := ⟨.punct, pos, ascii ";", 0⟩

/-- The tokens from a place on, with `for ( ; C ; )` for every header `while ( C )`. -/
def rewriteFrom : Place → List Token → List Token
  | _, [] => []
  | .outside, t :: rest =>
    if t.is (ascii "while") && rest.head?.any (·.is (ascii "(")) then
      { t with lit := ascii "for" } :: rewriteFrom .opening rest
    else t :: rewriteFrom .outside rest
  | .opening, t :: rest => t :: semicolon t.pos :: rewriteFrom (.inside 0) rest
  | .inside depth, t :: rest =>
    if t.is (ascii "(") then t :: rewriteFrom (.inside (depth + 1)) rest
    else if t.is (ascii ")") then
      match depth with
      | 0 => semicolon t.pos :: t :: rewriteFrom .outside rest
      | depth + 1 => t :: rewriteFrom (.inside depth) rest
    else t :: rewriteFrom (.inside depth) rest

/-- The tokens with `for ( ; C ; )` for every header `while ( C )`. -/
def whileAsFor (toks : List Token) : List Token := rewriteFrom .outside toks

/-- Every parenthesis has its partner, and no loop begins. -/
inductive Balanced : List Token → Prop
  | nil : Balanced []
  | token {t : Token} {w : List Token} (notOpening : t.is (ascii "(") = false)
      (notClosing : t.is (ascii ")") = false) (noLoop : t.is (ascii "while") = false)
      (rest : Balanced w) : Balanced (t :: w)
  | group {t t₁ : Token} {v w : List Token} (opens : t.is (ascii "(")) (inner : Balanced v)
      (closes : t₁.is (ascii ")")) (rest : Balanced w) : Balanced (t :: (v ++ t₁ :: w))

namespace Balanced

variable {v w : List Token}

theorem append (hv : Balanced v) (hw : Balanced w) : Balanced (v ++ w) := by
  induction hv with
  | nil => exact hw
  | token notOpening notClosing noLoop _ ih => exact .token notOpening notClosing noLoop ih
  | group opens inner closes _ _ ih =>
    rw [List.cons_append, List.append_assoc]
    exact .group opens inner closes ih

/-- Balanced tokens inside a header do not end it. -/
theorem rewriteFrom_inside (h : Balanced w) (depth : Nat) (v : List Token) :
    rewriteFrom (.inside depth) (w ++ v) = w ++ rewriteFrom (.inside depth) v := by
  induction h generalizing depth v with
  | nil => rfl
  | token notOpening notClosing _ _ ih =>
    simp only [List.cons_append, rewriteFrom, notOpening, notClosing, Bool.false_eq_true, if_false,
      ih]
  | @group t t₁ v' w opens inner closes rest ih₁ ih₂ =>
    have hn := is_eq_false_of_is closes (b := ascii "(") (by decide)
    simp only [List.cons_append, List.append_assoc, rewriteFrom, opens, if_true, ih₁, hn, closes,
      Bool.false_eq_true, if_false, ih₂]

theorem notLoop (h : Balanced w) : ∀ t ∈ w, t.is (ascii "while") = false := by
  induction h with
  | nil => simp
  | token _ _ noLoop _ ih => exact List.forall_mem_cons.mpr ⟨noLoop, ih⟩
  | group opens inner closes _ ih₁ ih₂ =>
    simp only [List.forall_mem_cons, List.forall_mem_append]
    exact ⟨is_eq_false_of_is opens (by decide), ih₁, is_eq_false_of_is closes (by decide), ih₂⟩

end Balanced

theorem is_for {t : Token} (h : t.is (ascii "while")) :
    ({ t with lit := ascii "for" } : Token).is (ascii "for") := by
  simp only [Token.is, Bool.and_eq_true] at h ⊢
  exact ⟨h.1, beq_self_eq_true _⟩

theorem whileAsFor_cons {t : Token} (h : t.is (ascii "while") = false) (rest : List Token) :
    whileAsFor (t :: rest) = t :: whileAsFor rest := by
  simp only [whileAsFor, rewriteFrom, h, Bool.false_and, Bool.false_eq_true, if_false]

theorem whileAsFor_append {w : List Token} (h : ∀ t ∈ w, t.is (ascii "while") = false)
    (rest : List Token) : whileAsFor (w ++ rest) = w ++ whileAsFor rest := by
  induction w with
  | nil => rfl
  | cons t w ih =>
    rw [List.forall_mem_cons] at h
    rw [List.cons_append, whileAsFor_cons h.1, ih h.2, List.cons_append]

/-- A whole header. -/
theorem whileAsFor_header {t t₁ t₂ : Token} {w : List Token} (isWhile : t.is (ascii "while"))
    (opens : t₁.is (ascii "(")) (inner : Balanced w) (closes : t₂.is (ascii ")"))
    (rest : List Token) :
    whileAsFor (t :: t₁ :: (w ++ t₂ :: rest)) =
      { t with lit := ascii "for" } :: t₁ :: semicolon t₁.pos ::
        (w ++ semicolon t₂.pos :: t₂ :: whileAsFor rest) := by
  have hn := is_eq_false_of_is closes (b := ascii "(") (by decide)
  simp only [whileAsFor, rewriteFrom, isWhile, opens, List.head?_cons, Option.any_some,
    Bool.and_self, if_true, inner.rewriteFrom_inside, hn, closes, Bool.false_eq_true, if_false]

private theorem head?_beforeEnd (toks : List Token) (lit : Bytes) :
    (beforeEnd toks).head?.any (·.is lit) = toks.head?.any (·.is lit) := by
  cases toks with
  | nil => rfl
  | cons t rest =>
    rw [beforeEnd, List.takeWhile_cons]
    split
    · rfl
    · next hk => simp [Token.is, show t.kind = .eof by simpa using hk]

/-- No end mark is added or lost. -/
theorem beforeEnd_rewriteFrom (place : Place) (toks : List Token) :
    beforeEnd (rewriteFrom place toks) = rewriteFrom place (beforeEnd toks) := by
  induction toks generalizing place with
  | nil => cases place <;> rfl
  | cons t rest ih =>
    by_cases hk : t.kind = .eof
    · have hn (lit : Bytes) : t.is lit = false := by simp [Token.is, hk]
      have hb (v : List Token) : beforeEnd (t :: v) = [] := by simp [beforeEnd, hk]
      cases place with
      | outside => simp [rewriteFrom, hn, hb]
      | opening => simp [rewriteFrom, hb]
      | inside depth => simp [rewriteFrom, hn, hb]
    · have hb (v : List Token) : beforeEnd (t :: v) = t :: beforeEnd v := by simp [beforeEnd, hk]
      have hs (v : List Token) :
          beforeEnd (semicolon t.pos :: v) = semicolon t.pos :: beforeEnd v := rfl
      cases place with
      | outside =>
        rw [hb, rewriteFrom, rewriteFrom, head?_beforeEnd, ← ih, ← ih]
        split
        · simp [beforeEnd, hk]
        · exact hb _
      | opening => rw [hb, rewriteFrom, rewriteFrom, hb, hs, ih]
      | inside depth =>
        simp only [hb, rewriteFrom]
        split
        · rw [hb, ih]
        · split
          · cases depth with
            | zero => simp only [hs, hb, ih]
            | succ depth => simp only [hb, ih]
          · rw [hb, ih]

end StackC.Token
