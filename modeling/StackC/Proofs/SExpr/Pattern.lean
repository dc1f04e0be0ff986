import StackC.Proofs.SExpr.Match
import StackC.Proofs.SExpr.RoundTrip
import Mathlib.Data.List.Forall2

/-! What patterns mean. A list of a pattern is cut at its ellipses into blocks, and a list matches
it if the blocks are found in it in their order, the first at its beginning and the last at its
end. -/
namespace StackC.SExpr

/-- The items before, between and behind the ellipses of a list. -/
def blocks (items : List Node) : List (List Node) := items.splitOnP Node.isEllipsis

/-- Chunks one after the other, with gaps between them. -/
def spaced (chunks gaps : List (List Node)) : List Node :=
  (List.zipWith (· ++ ·) chunks (gaps ++ [[]])).flatten

/-- The datum has the shape of the pattern. -/
inductive Matches : Node → Node → Prop
  | wildcard {p g : Node} (any : p.isWildcard) : Matches p g
  | atom {p g : Node} (notList : p.kind ≠ .list) (kind : p.kind = g.kind) (text : p.text = g.text) :
      Matches p g
  /-- Each block matches a chunk of its own length, item by item. What stands in the gaps does not
  matter. -/
  | list {p g : Node} {chunks gaps : List (List Node)} (isList : p.kind = .list)
      (kind : g.kind = .list) (gapBetween : chunks.length = gaps.length + 1)
      (split : g.items = spaced chunks gaps)
      (inner : List.Forall₂ (List.Forall₂ Matches) (blocks p.items) chunks) :
      Matches p g

/-- Neither the datum nor anything in it is a wildcard or an ellipsis. -/
inductive Literal : Node → Prop
  | intro {n : Node} (notWildcard : n.isWildcard = false) (notEllipsis : n.isEllipsis = false)
      (inner : ∀ m ∈ n.items, Literal m) : Literal n

mutual

/-- The datum without what has no meaning in it: the text of lists, and the items of all else. -/
def Node.bare : Node → Node
  | ⟨.list, _, items⟩ => .list (bareItems items)
  | ⟨kind, text, _⟩ => { kind, text }

def Node.bareItems : List Node → List Node
  | [] => []
  | n :: ns => n.bare :: bareItems ns

end

/-- What holds of a datum if it holds of its items holds of every datum. -/
@[elab_as_elim]
theorem Node.items_induction {P : Node → Prop} (step : ∀ n : Node, (∀ m ∈ n.items, P m) → P n)
    (n : Node) : P n :=
  Node.rec (motive_2 := fun items => ∀ m ∈ items, P m) (fun _ _ _ inner => step _ inner)
    (by simp) (fun _ _ first rest => List.forall_mem_cons.mpr ⟨first, rest⟩) n

variable {p g : Node} {ps gs : List Node}

private theorem isWildcard_of_list (h : p.kind = .list) : p.isWildcard = false := by
  simp [Node.isWildcard, h]

theorem fits_of_list (h : p.kind = .list) :
    p.fits g ↔ g.kind = .list ∧ Node.matchItems p.items g.items := by
  obtain ⟨kind, text, items⟩ := p
  obtain rfl : kind = .list := h
  have hs : (NodeKind.list == .symbol) = false := rfl
  rw [Node.fits, hs]
  simp only [Bool.false_and, Bool.false_or, beq_self_eq_true, if_true, Bool.and_eq_true, beq_iff_eq]
  exact and_congr_left fun _ => eq_comm

theorem fits_of_atom (h : p.kind ≠ .list) :
    p.fits g ↔ p.isWildcard ∨ p.kind = g.kind ∧ p.text = g.text := by
  obtain ⟨kind, text, items⟩ := p
  have hl : (kind == .list) = false := beq_false_of_ne h
  rw [Node.fits, hl]
  simp [Node.isWildcard]

theorem matchItems_ellipsis (he : p.isEllipsis) :
    Node.matchItems (p :: ps) gs ↔ ∃ gap rest, gs = gap ++ rest ∧ Node.matchItems ps rest := by
  rw [Node.matchItems.eq_def]
  simp only [he, if_true, List.any_eq_true, List.mem_range]
  constructor
  · rintro ⟨n, -, h⟩
    exact ⟨gs.take n, gs.drop n, (List.take_append_drop n gs).symm, h⟩
  · rintro ⟨gap, rest, rfl, h⟩
    exact ⟨gap.length, by simp only [List.length_append]; omega, by rwa [List.drop_left]⟩

section Blocks

@[simp] theorem blocks_nil : blocks [] = [[]] := List.splitOnP_nil

theorem blocks_ellipsis (he : p.isEllipsis) : blocks (p :: ps) = [] :: blocks ps := by
  rw [blocks, List.splitOnP_cons_eq_if_modifyHead, if_pos he, blocks]

theorem exists_blocks (ps : List Node) : ∃ b bs, blocks ps = b :: bs :=
  List.exists_cons_of_ne_nil (List.splitOnP_ne_nil _ ps)

theorem blocks_cons (he : p.isEllipsis = false) {b : List Node} {bs : List (List Node)}
    (h : blocks ps = b :: bs) : blocks (p :: ps) = (p :: b) :: bs := by
  rw [blocks, List.splitOnP_cons_eq_if_modifyHead, if_neg (by simp [he]), ← blocks, h,
    List.modifyHead_cons]

/-- What stands in a block stands in the list. -/
theorem subset_of_mem_blocks {b : List Node} (hb : b ∈ blocks ps) : b ⊆ ps := by
  induction ps generalizing b with
  | nil =>
    rw [blocks_nil, List.mem_singleton] at hb
    rw [hb]
    exact List.nil_subset _
  | cons p ps ih =>
    cases he : p.isEllipsis with
    | true =>
      rw [blocks_ellipsis he] at hb
      rcases List.mem_cons.mp hb with rfl | hb
      · exact List.nil_subset _
      · exact List.subset_cons_of_subset p (ih hb)
    | false =>
      obtain ⟨c, cs, hc⟩ := exists_blocks ps
      rw [blocks_cons he hc] at hb
      rw [hc] at ih
      rcases List.mem_cons.mp hb with rfl | hb
      · exact List.cons_subset_cons p (ih List.mem_cons_self)
      · exact List.subset_cons_of_subset p (ih (List.mem_cons_of_mem c hb))

end Blocks

section Spaced

variable {c : List Node} {chunks gaps : List (List Node)}

@[simp] theorem spaced_single : spaced [c] [] = c := by
  simp [spaced]

@[simp] theorem spaced_cons {gap : List Node} :
    spaced (c :: chunks) (gap :: gaps) = c ++ (gap ++ spaced chunks gaps) := by
  simp [spaced]

theorem spaced_cons_item (h : chunks.length = gaps.length) :
    spaced ((g :: c) :: chunks) gaps = g :: spaced (c :: chunks) gaps := by
  cases gaps with
  | nil =>
    obtain rfl : chunks = [] := List.length_eq_zero_iff.mp h
    simp
  | cons gap gaps => simp

end Spaced

/-- The items match if the blocks do, with gaps between them. -/
theorem matchItems_iff_spaced : Node.matchItems ps gs ↔
    ∃ chunks gaps : List (List Node), chunks.length = gaps.length + 1 ∧ gs = spaced chunks gaps ∧
      List.Forall₂ (List.Forall₂ fun p g => p.fits g) (blocks ps) chunks := by
  induction ps generalizing gs with
  | nil =>
    rw [Node.matchItems, List.isEmpty_iff, blocks_nil]
    constructor
    · rintro rfl
      exact ⟨[[]], [], rfl, by simp, .cons .nil .nil⟩
    · rintro ⟨chunks, gaps, hl, rfl, hm⟩
      simp only [List.forall₂_cons_left_iff, List.forall₂_nil_left_iff] at hm
      obtain ⟨_, _, rfl, rfl, rfl⟩ := hm
      obtain rfl : gaps = [] := by simpa using hl
      simp
  | cons p ps ih =>
    obtain ⟨b, bs, hb⟩ := exists_blocks ps
    cases he : p.isEllipsis with
    | true =>
      rw [matchItems_ellipsis he, blocks_ellipsis he]
      constructor
      · rintro ⟨gap, rest, rfl, h⟩
        obtain ⟨chunks, gaps, hl, rfl, hm⟩ := ih.mp h
        -- An ellipsis ends a block: the block before it is empty here, and a gap follows.
        exact ⟨[] :: chunks, gap :: gaps, by simp [hl], by simp, .cons .nil hm⟩
      · rintro ⟨_, gaps, hl, rfl, hm⟩
        rw [List.forall₂_cons_left_iff] at hm
        obtain ⟨c, chunks, hc, hm, rfl⟩ := hm
        obtain rfl := List.forall₂_nil_left_iff.mp hc
        cases gaps with
        | nil =>
          obtain rfl : chunks = [] := by simpa using hl
          simp [hb] at hm
        | cons gap gaps =>
          exact ⟨gap, spaced chunks gaps, by simp,
            ih.mpr ⟨chunks, gaps, by simpa using hl, rfl, hm⟩⟩
    | false =>
      rw [blocks_cons he hb]
      rw [hb] at ih
      simp only [List.forall₂_cons_left_iff] at ih ⊢
      cases gs with
      | nil =>
        rw [matchItems_nil he]
        refine iff_of_false (by simp) ?_
        rintro ⟨_, gaps, hl, hs, _, chunks, ⟨g, c, hp, hm, rfl⟩, hms, rfl⟩
        rw [spaced_cons_item (Nat.succ.inj hl)] at hs
        cases hs
      | cons g gs =>
        rw [matchItems_cons he, Bool.and_eq_true, ih]
        constructor
        · rintro ⟨hp, _, gaps, hl, rfl, c, chunks, hm, hms, rfl⟩
          exact ⟨(g :: c) :: chunks, gaps, hl, (spaced_cons_item (Nat.succ.inj hl)).symm, g :: c,
            chunks, ⟨g, c, hp, hm, rfl⟩, hms, rfl⟩
        · rintro ⟨_, gaps, hl, hs, _, chunks, ⟨d, c, hp, hm, rfl⟩, hms, rfl⟩
          rw [spaced_cons_item (Nat.succ.inj hl), List.cons.injEq] at hs
          obtain ⟨rfl, rfl⟩ := hs
          exact ⟨hp, c :: chunks, gaps, hl, rfl, c, chunks, hm, hms, rfl⟩

/-- Relations that agree on the items of both sides agree on lists of them. -/
theorem forall₂_congr_mem {α β : Type} {R S : α → β → Prop} {xs : List α} {ys : List β}
    (h : ∀ x ∈ xs, ∀ y, R x y ↔ S x y) : List.Forall₂ R xs ys ↔ List.Forall₂ S xs ys := by
  induction xs generalizing ys with
  | nil => simp
  | cons x xs ih =>
    rw [List.forall_mem_cons] at h
    simp only [List.forall₂_cons_left_iff, h.1, ih h.2]

/-- The test for a match decides what matches. -/
theorem fits_iff_matches (p g : Node) : p.fits g ↔ Matches p g := by
  induction p using Node.items_induction generalizing g with
  | step p ih =>
    have inner {chunks : List (List Node)} :
        List.Forall₂ (List.Forall₂ fun p g => p.fits g) (blocks p.items) chunks ↔
          List.Forall₂ (List.Forall₂ Matches) (blocks p.items) chunks :=
      forall₂_congr_mem fun b hb c =>
        forall₂_congr_mem fun q hq => ih q (subset_of_mem_blocks hb hq)
    by_cases hk : p.kind = .list
    · rw [fits_of_list hk, matchItems_iff_spaced]
      simp only [inner]
      constructor
      · rintro ⟨hg, chunks, gaps, hl, hs, hm⟩
        exact .list hk hg hl hs hm
      · intro h
        cases h with
        | wildcard any => rw [isWildcard_of_list hk] at any; cases any
        | atom notList => exact absurd hk notList
        | list _ kind gapBetween split inner => exact ⟨kind, _, _, gapBetween, split, inner⟩
    · rw [fits_of_atom hk]
      constructor
      · rintro (hw | ⟨hg, ht⟩)
        · exact .wildcard hw
        · exact .atom hk hg ht
      · intro h
        cases h with
        | wildcard any => exact .inl any
        | atom _ kind text => exact .inr ⟨kind, text⟩
        | list isList => exact absurd isList hk

theorem mismatch?_eq_none_iff : p.mismatch? g = none ↔ p.fits g := by
  rw [Node.mismatch?]
  split <;> simp_all

section Same

private theorem matchItems_self (h : ∀ p ∈ ps, p.fits p) : Node.matchItems ps ps := by
  induction ps with
  | nil => rfl
  | cons p ps ih =>
    rw [List.forall_mem_cons] at h
    cases he : p.isEllipsis with
    | true => exact (matchItems_ellipsis he).mpr ⟨[p], ps, rfl, ih h.2⟩
    | false => rw [matchItems_cons he, h.1, ih h.2]; rfl

/-- Every datum matches itself. -/
theorem fits_self (p : Node) : p.fits p := by
  induction p using Node.items_induction with
  | step p ih =>
    by_cases hk : p.kind = .list
    · exact (fits_of_list hk).mpr ⟨hk, matchItems_self ih⟩
    · exact (fits_of_atom hk).mpr (.inr ⟨rfl, rfl⟩)

end Same

section Bare

@[simp] theorem bareItems_eq_map (ns : List Node) : Node.bareItems ns = ns.map Node.bare := by
  induction ns with
  | nil => rfl
  | cons n ns ih => rw [Node.bareItems, ih, List.map_cons]

theorem bare_of_list (h : g.kind = .list) : g.bare = .list (g.items.map Node.bare) := by
  obtain ⟨kind, text, items⟩ := g
  obtain rfl : kind = .list := h
  rw [Node.bare, bareItems_eq_map]

theorem bare_of_atom (h : g.kind ≠ .list) : g.bare = { kind := g.kind, text := g.text } := by
  obtain ⟨kind, text, items⟩ := g
  cases kind with
  | list => exact absurd rfl h
  | _ => rfl

@[simp] theorem kind_bare (g : Node) : g.bare.kind = g.kind := by
  by_cases h : g.kind = .list
  · rw [bare_of_list h, h]
    rfl
  · rw [bare_of_atom h]

private theorem formed_bare (g : Node) : Formed g.bare := by
  induction g using Node.items_induction with
  | step g ih =>
    by_cases h : g.kind = .list
    · rw [bare_of_list h]
      exact .list (by simpa using ih)
    · rw [bare_of_atom h]
      exact .atom h rfl

private theorem bare_of_formed (h : Formed g) : g.bare = g := by
  induction h with
  | @atom n notList bare =>
    rw [bare_of_atom notList]
    cases n
    simp_all
  | @list items inner ih =>
    have hm : items.map Node.bare = items.map id := List.map_congr_left ih
    rw [bare_of_list rfl]
    exact congrArg Node.list (hm.trans (List.map_id items))

private theorem matchItems_map_bare (h : ∀ p ∈ ps, ∀ g, p.fits g.bare ↔ p.fits g) :
    Node.matchItems ps (gs.map Node.bare) ↔ Node.matchItems ps gs := by
  induction ps generalizing gs with
  | nil => simp [Node.matchItems]
  | cons p ps ih =>
    rw [List.forall_mem_cons] at h
    cases he : p.isEllipsis with
    | true =>
      rw [matchItems_ellipsis he, matchItems_ellipsis he]
      constructor
      · rintro ⟨gap, rest, hs, hm⟩
        obtain ⟨gap, rest, rfl, rfl, rfl⟩ := List.map_eq_append_iff.mp hs
        exact ⟨gap, rest, rfl, (ih h.2).mp hm⟩
      · rintro ⟨gap, rest, rfl, hm⟩
        exact ⟨gap.map Node.bare, rest.map Node.bare, List.map_append, (ih h.2).mpr hm⟩
    | false =>
      cases gs with
      | nil => simp [matchItems_nil he]
      | cons g gs =>
        rw [List.map_cons, matchItems_cons he, matchItems_cons he, Bool.and_eq_true,
          Bool.and_eq_true, h.1, ih h.2]

/-- What has no meaning in a datum does not count for a match. -/
theorem fits_bare (p g : Node) : p.fits g.bare ↔ p.fits g := by
  induction p using Node.items_induction generalizing g with
  | step p ih =>
    by_cases hp : p.kind = .list
    · rw [fits_of_list hp, fits_of_list hp, kind_bare]
      refine and_congr_right fun hg => ?_
      rw [bare_of_list hg]
      exact matchItems_map_bare ih
    · rw [fits_of_atom hp, fits_of_atom hp, kind_bare]
      refine or_congr_right (and_congr_right fun hk => ?_)
      rw [bare_of_atom (hk ▸ hp)]

private theorem rigid_of_literal (h : Literal p) (hf : Formed p) : Rigid p := by
  induction h with
  | @intro n notWildcard notEllipsis inner ih =>
    cases hf with
    | atom notList bare => exact .atom notList bare notWildcard notEllipsis
    | list formed => exact .list fun m hm => ih m hm (formed m hm)

/-- A literal pattern matches a datum if and only if it is that datum, up to what has no meaning. -/
theorem fits_iff_bare_eq (h : Literal p) (hf : Formed p) : p.fits g ↔ g.bare = p := by
  rw [← fits_bare, fits_iff_eq (rigid_of_literal h hf) (formed_bare g), eq_comm]

end Bare

section Read

private theorem formed_of_atom? {w : Word} {n : Node} (h : w.atom? = some n) : Formed n := by
  cases w <;> cases h
  all_goals exact .atom (by simp [Node.symbol, Node.string, Node.integer, Node.ellipsis]) rfl

theorem formed_of_read {t : Bytes} {n : Node} (h : read t = .ok n) : Formed n := by
  have all (ws : Words) : ws.All fun w => ∀ m, w.atom? = some m → Formed m := by
    induction ws with
    | stop | fault => trivial
    | cons pos w rest ih => exact ⟨fun m => formed_of_atom?, ih⟩
  exact of_assemble (fun _ => .list) (all _) (by simp) h

end Read

/-- A datum is compared with a pattern as the meaning of patterns has it. So every datum matches
itself, and a pattern that was read, in which nothing is a wildcard or an ellipsis, matches the
datum it is, up to what has no meaning. -/
theorem mismatch?_decides_matches :
    (∀ p g : Node, p.mismatch? g = none ↔ Matches p g) ∧ (∀ p : Node, p.mismatch? p = none) ∧
      ∀ (t : Bytes) (p : Node), read t = .ok p → Literal p →
        (∀ g : Node, p.mismatch? g = none ↔ g.bare = p) ∧
          ∀ (t' : Bytes) (g : Node), read t' = .ok g → (p.mismatch? g = none ↔ g = p) := by
  refine ⟨fun p g => ?_, fun p => mismatch?_eq_none_iff.mpr (fits_self p), fun t p hp hl => ?_⟩
  · rw [mismatch?_eq_none_iff, fits_iff_matches]
  · have hb (g : Node) : p.mismatch? g = none ↔ g.bare = p := by
      rw [mismatch?_eq_none_iff, fits_iff_bare_eq hl (formed_of_read hp)]
    refine ⟨hb, fun t' g hg => ?_⟩
    rw [hb, bare_of_formed (formed_of_read hg)]

/-- A list that has a text matches the empty list without being equal to it. -/
theorem mismatch?_emptyList_of_text :
    read (ascii "()") = .ok (.list []) ∧ Literal (.list []) ∧
      (Node.list []).mismatch? { kind := .list, text := ascii "x" } = none ∧
      ({ kind := .list, text := ascii "x" } : Node) ≠ .list [] := by
  have hr : read (Node.print (.list []) ++ []) = .ok (.list []) :=
    read_print (.list (by simp)) (by simp)
  exact ⟨hr, .intro rfl rfl (by simp [Node.list]), rfl, fun h => by cases h⟩

def nestedList : Node :=
  .list [.symbol (ascii "a"), .list [.symbol (ascii "b"), .integer (ascii "1")]]

private theorem readable_nestedList : Readable Text.isPrintable nestedList := by
  have a : Readable Text.isPrintable (.symbol (ascii "a")) := .atom (w := .symbol (ascii "a")) rfl
    (spelled_symbol (by decide) (by simp) (by decide) (by decide) (by decide))
  have b : Readable Text.isPrintable (.symbol (ascii "b")) := .atom (w := .symbol (ascii "b")) rfl
    (spelled_symbol (by decide) (by simp) (by decide) (by decide) (by decide))
  have one : Readable Text.isPrintable (.integer (ascii "1")) :=
    .atom (w := .integer (ascii "1")) rfl (spelled_integer (.inl (by decide)) (by simp))
  exact .list (by simpa using ⟨a, .list (by simpa using ⟨b, one⟩)⟩)

theorem mismatch?_decides_matches_nestedList :
    read (ascii "(a (b 1))") = .ok nestedList ∧ Literal nestedList ∧
      ∀ g : Node, nestedList.mismatch? g = none ↔ g.bare = nestedList := by
  have hr : read (nestedList.print ++ []) = .ok nestedList :=
    read_print readable_nestedList (by simp)
  have list {items : List Node} (h : ∀ n ∈ items, Literal n) : Literal (.list items) :=
    .intro rfl rfl h
  have symbol (b : UInt8) (hb : (b == byte '_') = false) : Literal (.symbol [b]) :=
    .intro (by simpa [Node.isWildcard, Node.symbol, ascii] using hb) rfl (by simp [Node.symbol])
  have hl : Literal nestedList := by
    refine list (List.forall_mem_cons.mpr ⟨symbol (byte 'a') rfl, List.forall_mem_singleton.mpr ?_⟩)
    refine list (List.forall_mem_cons.mpr ⟨symbol (byte 'b') rfl, List.forall_mem_singleton.mpr ?_⟩)
    exact .intro rfl rfl (by simp [Node.integer])
  exact ⟨hr, hl, (mismatch?_decides_matches.2.2 _ nestedList hr hl).1⟩

end StackC.SExpr
