import StackC.Proofs.Lowering.Depth

/-! The paths through the code of statements: which statements control can get behind, and how deep
the stack is there. -/
namespace StackC

namespace Stmt

/-- The second statement is the first, or it stands somewhere inside. -/
inductive Holds : Stmt → Stmt → Prop
  | self {x : Stmt} : Holds x x
  | block {pos : Int} {body : List Stmt} {x z : Stmt} (mem : x ∈ body) (inner : Holds x z) :
      Holds (.block pos body) z
  | yes {pos : Int} {test : Expr} {yes no z : Stmt} (inner : Holds yes z) :
      Holds (.cond pos test yes no) z
  | no {pos : Int} {test : Expr} {yes no z : Stmt} (inner : Holds no z) :
      Holds (.cond pos test yes no) z
  | first {pos : Int} {first body z : Stmt} {test step : Expr} (inner : Holds first z) :
      Holds (.loop pos first test step body) z
  | body {pos : Int} {first body z : Stmt} {test step : Expr} (inner : Holds body z) :
      Holds (.loop pos first test step body) z

theorem Holds.trans {x y z : Stmt} (h : x.Holds y) (h' : y.Holds z) : x.Holds z := by
  induction h with
  | self => exact h'
  | block mem inner ih => exact .block mem (ih h')
  | yes inner ih => exact .yes (ih h')
  | no inner ih => exact .no (ih h')
  | first inner ih => exact .first (ih h')
  | body inner ih => exact .body (ih h')

/-- Where there is nothing, nothing stands inside. -/
theorem Holds.isAbsent {x z : Stmt} (h : x.Holds z) (hz : z.isAbsent = false) :
    x.isAbsent = false := by
  cases h with
  | self => exact hz
  | _ => rfl

mutual

/-- Control can get behind the statement. A loop is left where its test fails. -/
def passes : Stmt → Bool
  | absent | expr .. => true
  | ret .. => false
  | block _ body => allPass body
  | cond _ _ yes no => yes.passes || no.passes
  | loop _ first test _ _ => first.passes && !test.isAbsent

def allPass : List Stmt → Bool
  | [] => true
  | x :: xs => x.passes && allPass xs

end

def isControl : Stmt → Bool
  | cond .. | loop .. => true
  | _ => false

end Stmt

namespace Lowering

open Asm

def Piece.passes : Piece → Bool
  | one x => x.passes
  | many xs => Stmt.allPass xs

/-- The statement is one of the piece, or stands inside one. -/
def Piece.Holds : Piece → Stmt → Prop
  | one x, z => x.Holds z
  | many xs, z => ∃ x ∈ xs, x.Holds z

def Piece.isControl : Piece → Bool
  | one x => x.isControl
  | many _ => false

theorem passes_ofOptional (x : Stmt) : (Piece.ofOptional x).passes = x.passes :=
  Piece.apply_ofOptional Piece.passes rfl x

/-- Nothing is left on the stack by tests: the jumps take it, or control gets behind no conditional
and no loop. -/
def Calm (m : JumpMeaning) (piece : Piece) : Prop :=
  m.zeroPops = true ∨ ∀ z, piece.Holds z → z.isControl → z.passes = false

section Suffixes

variable {α : Type} {a b w : List α} {i : α}

theorem suffix_of_append (h : a ++ b <:+ w) : b <:+ w := (List.suffix_append a b).trans h

theorem suffix_of_cons (h : i :: b <:+ w) : b <:+ w := (List.suffix_cons i b).trans h

end Suffixes

section Leaving

variable {m : JumpMeaning} {w : List Marked}

theorem add_left (h : m.zeroPops = true) (d : Int) : d + m.left = d := by
  simp [JumpMeaning.left, h]

/-- A control that can be passed is calm only where the jumps take what they test. -/
theorem Calm.zeroPops {x : Stmt} (h : Calm m (.one x)) (hx : x.isControl) (hp : x.passes) :
    m.zeroPops = true := by
  rcases h with h | h
  · exact h
  · rw [h x .self hx] at hp
    cases hp

theorem Calm.mono {piece piece' : Piece} (h : Calm m piece)
    (hs : ∀ z, piece'.Holds z → piece.Holds z) : Calm m piece' := by
  rcases h with h | h
  · exact .inl h
  · exact .inr fun z hz => h z (hs z hz)

/-- Every path to the end that enters the code of a piece gets behind it, without more steps and, if
all is calm, at the depth it had before. -/
def Leaves (m : JumpMeaning) (w : List Marked) (piece : Piece) (code : List Marked) : Prop :=
  ∀ (rest : List Marked) (k : Nat) (d e : Int), code ++ rest <:+ w →
    Path m w k (code ++ rest) d [] e →
    piece.passes ∧ ∃ k' ≤ k, ∃ d', (Calm m piece → d' = d) ∧ Path m w k' rest d' [] e

theorem Leaves.append {x : Stmt} {xs : List Stmt} {a b : List Marked}
    (ha : Leaves m w (.one x) a) (hb : Leaves m w (.many xs) b) :
    Leaves m w (.many (x :: xs)) (a ++ b) := by
  intro rest k d e hs path
  rw [List.append_assoc] at hs path
  obtain ⟨hp₁, k₁, hk₁, d₁, hd₁, path⟩ := ha _ k d e hs path
  obtain ⟨hp₂, k₂, hk₂, d₂, hd₂, path⟩ := hb rest k₁ d₁ e (suffix_of_append hs) path
  refine ⟨?_, k₂, by omega, d₂, fun calm => ?_, path⟩
  · rw [Piece.passes, Stmt.allPass, Bool.and_eq_true]
    exact ⟨hp₁, hp₂⟩
  · have h₁ := hd₁ (calm.mono fun z hz => ⟨x, List.mem_cons_self, hz⟩)
    have h₂ := hd₂ (calm.mono fun z ⟨y, hy, hz⟩ => ⟨y, List.mem_cons_of_mem x hy, hz⟩)
    exact h₂.trans h₁

variable {exit : Bytes} (hd : (labels (instrs w)).Nodup)

include hd

/-- Where the jumps of a conditional lead. -/
theorem places_of_cond {k : Nat} {t a b rest : List Marked}
    (hs : t ++ ⟨.jumpZero (elseLabel k), 0⟩ :: (a ++ ⟨.jump (endLabel k), 0⟩ ::
      ⟨.label (elseLabel k), 0⟩ :: (b ++ ⟨.label (endLabel k), 0⟩ :: rest)) <:+ w) :
    a ++ ⟨.jump (endLabel k), 0⟩ :: ⟨.label (elseLabel k), 0⟩ ::
        (b ++ ⟨.label (endLabel k), 0⟩ :: rest) <:+ w ∧
      b ++ ⟨.label (endLabel k), 0⟩ :: rest <:+ w ∧
      after (elseLabel k) w = some (b ++ ⟨.label (endLabel k), 0⟩ :: rest) ∧
      after (endLabel k) w = some rest := by
  have hyes := suffix_of_cons (suffix_of_append hs)
  have helse := suffix_of_cons (suffix_of_append hyes)
  have hno := suffix_of_cons helse
  exact ⟨hyes, hno, after_of_suffix (a := []) hd helse,
    after_of_suffix (a := []) hd (suffix_of_append hno)⟩

/-- Where the jumps of a loop lead. -/
theorem places_of_loop {l l' : Bytes} {t b s rest : List Marked}
    (hs : ⟨.label l, 0⟩ :: (t ++ (b ++ (s ++ ⟨.jump l, 0⟩ :: ⟨.label l', 0⟩ :: rest))) <:+ w) :
    b ++ (s ++ ⟨.jump l, 0⟩ :: ⟨.label l', 0⟩ :: rest) <:+ w ∧
      after l w = some (t ++ (b ++ (s ++ ⟨.jump l, 0⟩ :: ⟨.label l', 0⟩ :: rest))) ∧
      after l' w = some rest := by
  have hbody := suffix_of_append (suffix_of_cons hs)
  have hend := suffix_of_cons (suffix_of_append (suffix_of_append hbody))
  exact ⟨hbody, after_of_suffix (a := []) hd hs, after_of_suffix (a := []) hd hend⟩

theorem leaves_cond {pos : Int} {test : Expr} {yes no : Stmt} {k : Nat} {t a b : List Marked}
    (ht : Straight m t 1) (ha : Leaves m w (.one yes) a) (hb : Leaves m w (.ofOptional no) b) :
    Leaves m w (.one (.cond pos test yes no)) (t ++ ⟨.jumpZero (elseLabel k), 0⟩ ::
      (a ++ ⟨.jump (endLabel k), 0⟩ :: ⟨.label (elseLabel k), 0⟩ ::
        (b ++ [⟨.label (endLabel k), 0⟩]))) := by
  intro rest j d e hs path
  simp only [List.append_assoc, List.cons_append, List.nil_append] at hs path
  obtain ⟨hyes, hno, helse, hend⟩ := places_of_cond hd hs
  obtain ⟨j₁, hj₁, path⟩ := path.behind_straight ht
  obtain ⟨j₂, hj₂, path | ⟨u, hu, path⟩⟩ := path.behind_jumpZero
  · obtain ⟨hp, j₃, hj₃, d', hd', path⟩ := ha _ j₂ _ e hyes path
    obtain ⟨j₄, u, hj₄, hu, path⟩ := path.behind_jump
    rw [hend, Option.some.injEq] at hu
    subst hu
    have hpass : (Stmt.cond pos test yes no).passes := by
      rw [Stmt.passes, Bool.or_eq_true]
      exact .inl hp
    refine ⟨hpass, j₄, by omega, d', fun calm => ?_, path⟩
    have hz := calm.zeroPops rfl hpass
    rw [hd' (.inl hz), add_left hz]
  · rw [helse, Option.some.injEq] at hu
    subst hu
    obtain ⟨hp, j₃, hj₃, d', hd', path⟩ := hb _ j₂ _ e hno path
    obtain ⟨j₄, hj₄, path⟩ := path.behind_label
    have hpass : (Stmt.cond pos test yes no).passes := by
      rw [Stmt.passes, Bool.or_eq_true, ← passes_ofOptional no]
      exact .inr hp
    refine ⟨hpass, j₄, by omega, d', fun calm => ?_, path⟩
    have hz := calm.zeroPops rfl hpass
    rw [hd' (.inl hz), add_left hz]

/-- A path from the test of a loop on goes round and is left where the test fails. -/
theorem behind_rounds {test : Expr} {body : Stmt} {l l' : Bytes} {t b s rest : List Marked}
    (ht : Tests m l' test t) (hb : Leaves m w (.one body) b) (hs : Straight m s 0)
    (hw : ⟨.label l, 0⟩ :: (t ++ (b ++ (s ++ ⟨.jump l, 0⟩ :: ⟨.label l', 0⟩ :: rest))) <:+ w)
    {k : Nat} {d e : Int}
    (path : Path m w k (t ++ (b ++ (s ++ ⟨.jump l, 0⟩ :: ⟨.label l', 0⟩ :: rest))) d [] e) :
    test.isAbsent = false ∧
      ∃ k' ≤ k, ∃ d', (m.zeroPops = true → d' = d) ∧ Path m w k' rest d' [] e := by
  obtain ⟨hbody, hbegin, hend⟩ := places_of_loop hd hw
  -- Each round takes a step, so that the path that is left to go is shorter.
  induction k using Nat.strongRecOn generalizing d with
  | ind k ih =>
    have round {k₁ : Nat} {d₁ : Int} (hk : k₁ ≤ k) (hz : m.zeroPops = true → d₁ = d)
        (path : Path m w k₁ (b ++ (s ++ ⟨.jump l, 0⟩ :: ⟨.label l', 0⟩ :: rest)) d₁ [] e) :
        test.isAbsent = false ∧
          ∃ k' ≤ k, ∃ d', (m.zeroPops = true → d' = d) ∧ Path m w k' rest d' [] e := by
      obtain ⟨-, k₂, hk₂, d₂, hd₂, path⟩ := hb _ k₁ d₁ e hbody path
      obtain ⟨k₃, hk₃, path⟩ := path.behind_straight hs
      rw [Int.add_zero] at path
      obtain ⟨k₄, u, hk₄, hu, path⟩ := path.behind_jump
      rw [hbegin, Option.some.injEq] at hu
      subst hu
      obtain ⟨htest, k', hk', d', hd', path⟩ := ih k₄ (by omega) path
      refine ⟨htest, k', by omega, d', fun h => ?_, path⟩
      rw [hd' h, hd₂ (.inl h), hz h]
    rcases ht with ⟨-, rfl⟩ | ⟨htest, a, ha, rfl⟩
    · exact round (Nat.le_refl k) (fun _ => rfl) path
    · rw [List.append_assoc] at path
      obtain ⟨k₁, hk₁, path⟩ := path.behind_straight ha
      obtain ⟨k₂, hk₂, path | ⟨u, hu, path⟩⟩ := path.behind_jumpZero
      · exact round (by omega) (fun h => add_left h d) path
      · rw [hend, Option.some.injEq] at hu
        subst hu
        exact ⟨htest, k₂, by omega, _, fun h => add_left h d, path⟩

private theorem leaves_loop {pos : Int} {first body : Stmt} {test step : Expr} {k : Nat}
    {i t b s : List Marked} (hi : Leaves m w (.ofOptional first) i)
    (ht : Tests m (endLabel k) test t) (hb : Leaves m w (.one body) b) (hs : Straight m s 0) :
    Leaves m w (.one (.loop pos first test step body)) (i ++ ⟨.label (beginLabel k), 0⟩ ::
      (t ++ (b ++ (s ++ [⟨.jump (beginLabel k), 0⟩, ⟨.label (endLabel k), 0⟩])))) := by
  intro rest j d e hw path
  simp only [List.append_assoc, List.cons_append, List.nil_append] at hw path
  obtain ⟨hp, j₁, hj₁, d₁, hd₁, path⟩ := hi _ j d e hw path
  obtain ⟨j₂, hj₂, path⟩ := path.behind_label
  obtain ⟨htest, j₃, hj₃, d', hd', path⟩ :=
    behind_rounds hd ht hb hs (suffix_of_append hw) path
  have hpass : (Stmt.loop pos first test step body).passes := by
    rw [Stmt.passes, ← passes_ofOptional first, hp, htest]
    rfl
  refine ⟨hpass, j₃, by omega, d', fun calm => ?_, path⟩
  have hz := calm.zeroPops rfl hpass
  rw [hd' hz, hd₁ (.inl hz)]

/-- What a path to the end does with the code of statements. -/
theorem leaves_of_layout {piece : Piece} {code : List Marked} (hexit : exit ∉ labels (instrs w))
    (h : Layout m exit piece code) : Leaves m w piece code := by
  induction h with
  | nil => exact fun rest k d e _ path => ⟨rfl, k, Nat.le_refl k, d, fun _ => rfl, path⟩
  | cons first rest ih₁ ih₂ => exact ih₁.append ih₂
  | block inner ih =>
    intro rest k d e hs path
    obtain ⟨hp, k', hk', d', hd', path⟩ := ih rest k d e hs path
    exact ⟨hp, k', hk', d', fun calm => hd' (calm.mono fun z ⟨x, hx, hz⟩ => .block hx hz), path⟩
  | cond tested first second ih₁ ih₂ => exact leaves_cond hd tested ih₁ ih₂
  | loop started tested inner stepped ih₁ ih₂ => exact leaves_loop hd ih₁ tested ih₂ stepped
  | ret valued =>
    intro rest k d e _ path
    rw [List.append_assoc] at path
    obtain ⟨k₁, -, path⟩ := path.behind_straight valued
    obtain ⟨k₂, t, -, ht, -⟩ := path.behind_jump
    rw [after_eq_none hexit] at ht
    cases ht
  | expr run =>
    intro rest k d e _ path
    obtain ⟨k₁, hk₁, path⟩ := path.behind_straight run
    rw [Int.add_zero] at path
    exact ⟨rfl, k₁, hk₁, d, fun _ => rfl, path⟩

end Leaving

section Crossing

variable {m : JumpMeaning} {w : List Marked} {exit : Bytes}

/-- Some path leads from the code of a piece behind it. It adds nothing less than zero to the depth,
and with a conditional or a loop at least what the tests leave. -/
def Crosses (m : JumpMeaning) (w : List Marked) (piece : Piece) (code : List Marked) : Prop :=
  ∀ rest, code ++ rest <:+ w → ∃ (k r : Nat), (piece.isControl → m.left ≤ r) ∧
    ∀ d : Int, Path m w k (code ++ rest) d rest (d + r)

/-- A loop with a test can be left. -/
theorem path_of_tests {done : Bytes} {test : Expr} {t u : List Marked} (ht : Tests m done test t)
    (htest : test.isAbsent = false) (hu : after done w = some u) :
    ∃ k, ∀ rest (d : Int), Path m w k (t ++ rest) d u (d + m.left) := by
  rcases ht with ⟨habsent, -⟩ | ⟨-, a, ha, rfl⟩
  · rw [habsent] at htest
    cases htest
  · refine ⟨a.length + 1, fun rest d => ?_⟩
    rw [List.append_assoc]
    exact (Path.straight ha d).trans (Path.jumpZero (.inr hu) d)

/-- Code of statements that control can get behind is crossed. -/
theorem crosses_of_layout {piece : Piece} {code : List Marked}
    (hd : (labels (instrs w)).Nodup) (h : Layout m exit piece code) (hp : piece.passes) :
    Crosses m w piece code := by
  induction h with
  | nil =>
    intro rest _
    refine ⟨0, 0, by simp [Piece.isControl], fun d => ?_⟩
    rw [Int.natCast_zero, Int.add_zero]
    exact .stay
  | cons first rest ih₁ ih₂ =>
    rw [Piece.passes, Stmt.allPass, Bool.and_eq_true] at hp
    intro rest hs
    rw [List.append_assoc] at hs ⊢
    obtain ⟨k₁, r₁, -, path₁⟩ := ih₁ hp.1 _ hs
    obtain ⟨k₂, r₂, -, path₂⟩ := ih₂ hp.2 rest (suffix_of_append hs)
    refine ⟨k₁ + k₂, r₁ + r₂, by simp [Piece.isControl], fun d => ?_⟩
    have path := (path₁ d).trans (path₂ _)
    rw [Int.add_assoc, ← Int.natCast_add] at path
    exact path
  | block inner ih =>
    intro rest hs
    obtain ⟨k, r, -, path⟩ := ih hp rest hs
    exact ⟨k, r, by simp [Piece.isControl, Stmt.isControl], path⟩
  | @cond pos test yes no k t a b tested first second ih₁ ih₂ =>
    intro rest hs
    simp only [List.append_assoc, List.cons_append, List.nil_append] at hs ⊢
    obtain ⟨hyes, hno, helse, hend⟩ := places_of_cond hd hs
    rw [Piece.passes, Stmt.passes, Bool.or_eq_true, ← passes_ofOptional no] at hp
    rcases hp with hp | hp
    · obtain ⟨j, r, -, path⟩ := ih₁ hp _ hyes
      refine ⟨t.length + (1 + (j + 1)), m.left + r, fun _ => Nat.le_add_right _ _, fun d => ?_⟩
      rw [Int.natCast_add, ← Int.add_assoc]
      exact (Path.straight tested d).trans ((Path.jumpZero (.inl rfl) d).trans
        ((path _).trans (.jump hend _)))
    · obtain ⟨j, r, -, path⟩ := ih₂ hp _ hno
      refine ⟨t.length + (1 + (j + 1)), m.left + r, fun _ => Nat.le_add_right _ _, fun d => ?_⟩
      rw [Int.natCast_add, ← Int.add_assoc]
      exact (Path.straight tested d).trans ((Path.jumpZero (.inr helse) d).trans
        ((path _).trans (.label _)))
  | @loop pos first body test step k i t b s started tested inner stepped ih₁ ih₂ =>
    intro rest hs
    simp only [List.append_assoc, List.cons_append, List.nil_append] at hs ⊢
    rw [Piece.passes, Stmt.passes, ← passes_ofOptional first, Bool.and_eq_true,
      Bool.not_eq_true'] at hp
    obtain ⟨j, r, -, path⟩ := ih₁ hp.1 _ hs
    obtain ⟨-, -, hend⟩ := places_of_loop hd (suffix_of_append hs)
    obtain ⟨j', out⟩ := path_of_tests tested hp.2 hend
    refine ⟨j + (1 + j'), r + m.left, fun _ => Nat.le_add_left _ _, fun d => ?_⟩
    rw [Int.natCast_add, ← Int.add_assoc]
    exact (path d).trans ((Path.label _).trans (out _ _))
  | ret valued => cases hp
  | expr run =>
    intro rest _
    refine ⟨_, 0, by simp [Piece.isControl, Stmt.isControl], fun d => Path.straight run d⟩

end Crossing

end Lowering

end StackC
