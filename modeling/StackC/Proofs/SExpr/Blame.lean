import StackC.Proofs.SExpr.Pattern
import StackC.Proofs.Text.Plain

/-! The place that is blamed for a mismatch. Of the places that come before any ellipsis it is the
first that does not match, where the items of a list come before the list itself. -/
namespace StackC.SExpr

/-- Both data go on along a path through lists, and no ellipsis of the pattern stands at or before
an item that is taken. -/
inductive Faces : Node → Node → List Nat → Node → Node → Prop
  | here {p g : Node} : Faces p g [] p g
  | item {p g q d a b : Node} {i : Nat} {path : List Nat} (isList : p.kind = .list)
      (kind : g.kind = .list) (taken : p.items[i]? = some q) (opposite : g.items[i]? = some d)
      (noEllipsis : ∀ e ∈ p.items.take (i + 1), e.isEllipsis = false)
      (rest : Faces q d path a b) :
      Faces p g (i :: path) a b

/-- Items come before the list that they stand in, and before the items behind them. -/
inductive Earlier : List Nat → List Nat → Prop
  | inside {i : Nat} {path : List Nat} : Earlier (i :: path) []
  | left {i j : Nat} {path path' : List Nat} (less : i < j) : Earlier (i :: path) (j :: path')
  | deeper {i : Nat} {path path' : List Nat} (rest : Earlier path path') :
      Earlier (i :: path) (i :: path')

/-- The data `q` and `d` at this place are the first that do not match. -/
structure FirstMismatch (p g : Node) (path : List Nat) (q d : Node) : Prop where
  place : Faces p g path q d
  differ : q.mismatch? d ≠ none
  /-- In every list on the way, the items before the one that is taken match. -/
  before : ∀ above i below, path = above ++ i :: below → ∀ j < i,
    ∃ a b, Faces p g (above ++ [j]) a b ∧ a.mismatch? b = none
  first : ∀ path' a b, Faces p g path' a b → Earlier path' path → a.mismatch? b = none

variable {p g q d : Node} {ps gs : List Node}

section Matching

/-- Items before any ellipsis match the items opposite. -/
theorem fits_of_matchItems {i : Nat} (h : Node.matchItems ps gs) (hp : ps[i]? = some q)
    (hg : gs[i]? = some d) (he : ∀ e ∈ ps.take (i + 1), e.isEllipsis = false) : q.fits d := by
  induction ps generalizing gs i with
  | nil => cases hp
  | cons p ps ih =>
    rw [List.take_succ_cons, List.forall_mem_cons] at he
    cases gs with
    | nil => cases hg
    | cons g gs =>
      rw [matchItems_cons he.1, Bool.and_eq_true] at h
      cases i with
      | zero =>
        cases hp
        cases hg
        exact h.1
      | succ i => exact ih h.2 hp hg he.2

/-- In data that match, all that stands before any ellipsis matches. -/
theorem Faces.fits {path : List Nat} (h : Faces p g path q d) (hm : p.fits g) : q.fits d := by
  induction h with
  | here => exact hm
  | item isList kind taken opposite noEllipsis rest ih =>
    exact ih (fits_of_matchItems ((fits_of_list isList).mp hm).2 taken opposite noEllipsis)

end Matching

section Items

/-- The items of two lists match, as far as both go and no ellipsis comes. -/
def Agree (ps gs : List Node) : Prop :=
  ∀ i q d, ps[i]? = some q → gs[i]? = some d →
    (∀ e ∈ ps.take (i + 1), e.isEllipsis = false) → q.fits d

theorem agree_cons (h : p.fits g) (hs : Agree ps gs) : Agree (p :: ps) (g :: gs) := by
  intro i q d hq hd he
  rw [List.take_succ_cons, List.forall_mem_cons] at he
  cases i with
  | zero =>
    cases hq
    cases hd
    exact h
  | succ i => exact hs i q d hq hd he.2

/-- The whole list is blamed if no item is at fault. Otherwise it is the first item that does not
match the one opposite. -/
theorem blameItems_cases (whole tooFew : Mismatch) (i : Nat) (ps gs : List Node) :
    (Node.blameItems whole tooFew i ps gs = whole ∨ Node.blameItems whole tooFew i ps gs = tooFew) ∧
        Agree ps gs ∨
      ∃ j q d, Node.blameItems whole tooFew i ps gs = (q.blame d).under (i + j) ∧
        ps[j]? = some q ∧ gs[j]? = some d ∧ q.fits d = false ∧ Agree (ps.take j) gs ∧
        ∀ e ∈ ps.take (j + 1), e.isEllipsis = false := by
  induction ps generalizing gs i with
  | nil =>
    rw [Node.blameItems]
    exact .inl ⟨.inl rfl, fun i q d hq => by cases hq⟩
  | cons p ps ih =>
    rw [Node.blameItems.eq_def]
    cases he : p.isEllipsis with
    | true =>
      refine .inl ⟨.inl (if_pos he), fun i q d _ _ hn => ?_⟩
      rw [List.take_succ_cons, List.forall_mem_cons, he] at hn
      cases hn.1
    | false =>
      simp only [he, Bool.false_eq_true, if_false]
      cases gs with
      | nil => exact .inl ⟨.inr rfl, fun i q d _ hd => by cases hd⟩
      | cons g gs =>
        cases hf : p.fits g with
        | false =>
          refine .inr ⟨0, p, g, by simp [hf], rfl, rfl, hf, ?_, by simpa using he⟩
          intro i q d hq
          cases hq
        | true =>
          simp only [hf, if_true]
          rcases ih (i + 1) gs with ⟨hw, ha⟩ | ⟨j, q, d, hb, hq, hd, hn, ha, he'⟩
          · exact .inl ⟨hw, agree_cons hf ha⟩
          · refine .inr ⟨j + 1, q, d, ?_, hq, hd, hn, ?_, ?_⟩
            · rw [hb, Nat.add_right_comm, Nat.add_assoc]
            · rw [List.take_succ_cons]
              exact agree_cons hf ha
            · rw [List.take_succ_cons, List.forall_mem_cons]
              exact ⟨he, he'⟩

end Items

theorem mismatch?_ne_none_iff : p.mismatch? g ≠ none ↔ p.fits g = false := by
  rw [ne_eq, mismatch?_eq_none_iff, Bool.not_eq_true]

section Blame

/-- Nothing stands further down than the roots, or all of it matches. -/
theorem firstMismatch_root (hn : p.fits g = false)
    (h : p.kind = .list → g.kind = .list → Agree p.items g.items) :
    FirstMismatch p g [] p g where
  place := .here
  differ := mismatch?_ne_none_iff.mpr hn
  before above i below hp := by simp at hp
  first path' a b hf he := by
    cases he with
    | inside =>
      cases hf with
      | item isList kind taken opposite noEllipsis rest =>
        exact mismatch?_eq_none_iff.mpr
          (rest.fits (h isList kind _ _ _ taken opposite noEllipsis))

/-- The first mismatch in two items is the first one in their lists, if the items before them
match. -/
theorem firstMismatch_item {q' d' : Node} {j : Nat} {path : List Nat} (hp : p.kind = .list)
    (hg : g.kind = .list) (hq : p.items[j]? = some q) (hd : g.items[j]? = some d)
    (ha : Agree (p.items.take j) g.items)
    (he : ∀ e ∈ p.items.take (j + 1), e.isEllipsis = false)
    (h : FirstMismatch q d path q' d') : FirstMismatch p g (j :: path) q' d' := by
  have fits_before {i : Nat} {a b : Node} (hi : i < j) (ht : p.items[i]? = some a)
      (ho : g.items[i]? = some b) : a.fits b := by
    refine ha i a b (by rw [List.getElem?_take_of_lt hi, ht]) ho fun e hm => ?_
    rw [List.take_take, Nat.min_eq_left hi] at hm
    exact he e ((List.take_prefix_take_left (by omega)).subset hm)
  constructor
  case place => exact .item hp hg hq hd he h.place
  case differ => exact h.differ
  case before =>
    intro above i below hpath k hk
    cases above with
    | nil =>
      cases hpath
      obtain ⟨a, ht⟩ : ∃ a, p.items[k]? = some a :=
        ⟨_, List.getElem?_eq_getElem (Nat.lt_trans hk (List.getElem?_eq_some_iff.mp hq).1)⟩
      obtain ⟨b, ho⟩ : ∃ b, g.items[k]? = some b :=
        ⟨_, List.getElem?_eq_getElem (Nat.lt_trans hk (List.getElem?_eq_some_iff.mp hd).1)⟩
      refine ⟨a, b, .item hp hg ht ho (fun e hm => ?_) .here,
        mismatch?_eq_none_iff.mpr (fits_before hk ht ho)⟩
      exact he e ((List.take_prefix_take_left (by omega)).subset hm)
    | cons j' above =>
      cases hpath
      obtain ⟨a, b, hf, hm⟩ := h.before above i below rfl k hk
      exact ⟨a, b, .item hp hg hq hd he hf, hm⟩
  case first =>
    intro path' a b hf hpath
    cases hf with
    | here => cases hpath
    | item _ _ taken opposite noEllipsis rest =>
      cases hpath with
      | left less =>
        exact mismatch?_eq_none_iff.mpr (rest.fits (fits_before less taken opposite))
      | deeper earlier =>
        rw [hq] at taken
        rw [hd] at opposite
        cases taken
        cases opposite
        exact h.first _ a b rest earlier

/-- What is blamed for a mismatch is the first one. -/
theorem firstMismatch_blame (p g : Node) (hn : p.fits g = false) :
    FirstMismatch p g (p.blame g).path (p.blame g).pattern (p.blame g).got := by
  induction p using Node.items_induction generalizing g with
  | step p ih =>
    obtain ⟨kind, text, items⟩ := p
    rw [Node.blame]
    split
    case isTrue hk =>
      refine firstMismatch_root hn fun hp hg => ?_
      rw [bne_iff_ne] at hk
      exact absurd (hp.trans hg.symm) hk
    case isFalse hk =>
      rw [bne_iff_ne, not_not] at hk
      split
      case isTrue hl =>
        rw [bne_iff_ne] at hl
        exact firstMismatch_root hn fun hp _ => absurd hp hl
      case isFalse hl =>
        rw [bne_iff_ne, not_not] at hl
        subst hl
        rcases blameItems_cases _ _ 0 items g.items with
          ⟨hw | hw, ha⟩ | ⟨j, q, d, hb, hq, hd, hf, ha, he⟩
        · rw [hw]
          exact firstMismatch_root hn fun _ _ => ha
        · rw [hw]
          exact firstMismatch_root hn fun _ _ => ha
        · rw [hb, Nat.zero_add]
          exact firstMismatch_item rfl hk.symm hq hd ha he (ih q (List.mem_of_getElem? hq) d hf)

end Blame

section Message

def indices (path : List Nat) : Bytes :=
  path.flatMap fun i => ascii "[" ++ Text.decimalNat i ++ ascii "]"

/-- A message about the place with this path. -/
def about (path : List Nat) (rest : Bytes) : Bytes :=
  ascii "at root" ++ indices path ++ ascii ": " ++ rest

theorem indices_cons (i : Nat) (path : List Nat) (rest : Bytes) :
    indices (i :: path) ++ rest =
      byte '[' :: (Text.decimalNat i ++ byte ']' :: (indices path ++ rest)) := by
  simp [indices, ascii]

/-- The numbers of a path can be told from their text. -/
theorem indices_inj {a b : List Nat} {r r' : Bytes}
    (h : indices a ++ byte ':' :: r = indices b ++ byte ':' :: r') : a = b := by
  have hne : byte ':' ≠ byte '[' := by decide
  have digits (i : Nat) (rest : Bytes) :
      (Text.decimalNat i ++ byte ']' :: rest).takeWhile Text.isDigit = Text.decimalNat i := by
    rw [List.takeWhile_append_of_pos (Text.isDigit_decimalNat i),
      List.takeWhile_cons_of_neg (by decide), List.append_nil]
  induction a generalizing b with
  | nil =>
    cases b with
    | nil => rfl
    | cons j b =>
      rw [indices_cons] at h
      exact absurd (List.cons.inj h).1 hne
  | cons i a ih =>
    cases b with
    | nil =>
      rw [indices_cons] at h
      exact absurd (List.cons.inj h).1.symm hne
    | cons j b =>
      rw [indices_cons, indices_cons, List.cons.injEq] at h
      have hd := congrArg (List.takeWhile Text.isDigit) h.2
      rw [digits, digits] at hd
      rw [hd, List.append_cancel_left_eq, List.cons.injEq] at h
      rw [Text.decimalNat_inj hd, ih h.2.2]

private theorem about_inj {a b : List Nat} {r r' : Bytes} (h : about a r = about b r') : a = b := by
  simp only [about, List.append_assoc, List.append_cancel_left_eq] at h
  exact indices_inj h

private theorem message_eq_about (m : Mismatch) : ∃ rest, m.message = about m.path rest := by
  simp only [Mismatch.message, about, List.append_assoc]
  exact ⟨ascii "expected " ++ _, rfl⟩

end Message

/-- The message of a failed comparison is about one place, and what stands there in the pattern and
in the data is the first that does not match. -/
theorem firstMismatch_of_message {p g : Node} {m : Mismatch} (h : p.mismatch? g = some m) :
    (∃ path rest, m.message = about path rest) ∧
      ∀ path rest, m.message = about path rest → FirstMismatch p g path m.pattern m.got := by
  have hn : p.fits g = false := mismatch?_ne_none_iff.mp (by simp [h])
  obtain rfl : p.blame g = m := by simpa [Node.mismatch?, hn] using h
  obtain ⟨rest, hm⟩ := message_eq_about (p.blame g)
  refine ⟨⟨_, rest, hm⟩, fun path rest' hp => ?_⟩
  rw [← about_inj (hm.symm.trans hp)]
  exact firstMismatch_blame p g hn

/-- A pattern with ellipses in two lists, one of them inside the other. -/
def gappedPattern : Node :=
  .list [.symbol (ascii "a"), .list [.symbol (ascii "_"), .integer (ascii "1"), .ellipsis],
    .ellipsis, .symbol (ascii "c")]

/-- A datum that does not match it, for two reasons. -/
def ungappedData : Node :=
  .list [.symbol (ascii "a"), .list [.symbol (ascii "b"), .integer (ascii "2")],
    .symbol (ascii "d")]

theorem firstMismatch_of_message_gapped :
    (gappedPattern.mismatch? ungappedData).map Mismatch.message =
        some (ascii "at root[1][1]: expected 1, got 2") ∧
      FirstMismatch gappedPattern ungappedData [1, 1] (.integer (ascii "1"))
        (.integer (ascii "2")) := by
  have h : gappedPattern.mismatch? ungappedData = some {
      path := [1, 1], difference := .text, pattern := .integer (ascii "1")
      got := .integer (ascii "2") } := by rfl
  have hm : Mismatch.message {
      path := [1, 1], difference := .text, pattern := .integer (ascii "1")
      got := .integer (ascii "2") } = ascii "at root[1][1]: expected 1, got 2" := by decide +kernel
  rw [h, Option.map_some, hm]
  exact ⟨rfl, (firstMismatch_of_message h).2 [1, 1] (ascii "expected 1, got 2")
    (hm.trans (by decide +kernel))⟩

end StackC.SExpr
