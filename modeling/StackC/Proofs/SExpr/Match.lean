import StackC.SExpr.Match

/-! A pattern without wildcards and ellipses matches nothing but itself. -/
namespace StackC.SExpr

/-- A datum as reading gives it: atoms have no items, and lists no text. -/
inductive Formed : Node → Prop
  | atom {n : Node} (notList : n.kind ≠ .list) (bare : n.items = []) : Formed n
  | list {items : List Node} (inner : ∀ n ∈ items, Formed n) : Formed (.list items)

/-- A datum in which nothing stands for anything else. -/
inductive Rigid : Node → Prop
  | atom {n : Node} (notList : n.kind ≠ .list) (bare : n.items = [])
      (notWildcard : n.isWildcard = false) (notEllipsis : n.isEllipsis = false) : Rigid n
  | list {items : List Node} (inner : ∀ n ∈ items, Rigid n) : Rigid (.list items)

variable {p g : Node}

theorem Rigid.formed (h : Rigid p) : Formed p := by
  induction h with
  | atom notList bare => exact .atom notList bare
  | list inner ih => exact .list ih

theorem Rigid.isEllipsis (h : Rigid p) : p.isEllipsis = false := by
  cases h with
  | atom _ _ _ notEllipsis => exact notEllipsis
  | list => rfl

theorem Formed.eq_list (h : Formed g) (hk : g.kind = .list) :
    ∃ items, g = .list items ∧ ∀ n ∈ items, Formed n := by
  cases h with
  | atom notList => exact absurd hk notList
  | list inner => exact ⟨_, rfl, inner⟩

private theorem fits_list {items : List Node} :
    (Node.list items).fits g ↔ g.kind = .list ∧ Node.matchItems items g.items := by
  have hs : (NodeKind.list == .symbol) = false := rfl
  rw [Node.list, Node.fits, hs]
  simp only [Bool.false_and, Bool.false_or, beq_self_eq_true, if_true, Bool.and_eq_true, beq_iff_eq]
  exact and_congr_left fun _ => eq_comm

theorem matchItems_cons {ps gs : List Node} (he : p.isEllipsis = false) :
    Node.matchItems (p :: ps) (g :: gs) = (p.fits g && Node.matchItems ps gs) := by
  rw [Node.matchItems.eq_def]
  simp [he]

theorem matchItems_nil {ps : List Node} (he : p.isEllipsis = false) :
    Node.matchItems (p :: ps) [] = false := by
  rw [Node.matchItems.eq_def]
  simp [he]

private theorem matchItems_iff_eq {ps gs : List Node} (he : ∀ p ∈ ps, p.isEllipsis = false)
    (h : ∀ p ∈ ps, ∀ g ∈ gs, p.fits g ↔ p = g) : Node.matchItems ps gs ↔ ps = gs := by
  induction ps generalizing gs with
  | nil => cases gs <;> simp [Node.matchItems]
  | cons p ps ih =>
    rw [List.forall_mem_cons] at he
    cases gs with
    | nil => simp [matchItems_nil he.1]
    | cons g gs =>
      have hhead := h p List.mem_cons_self g List.mem_cons_self
      have htail := ih he.2 fun q hq r hr =>
        h q (List.mem_cons_of_mem p hq) r (List.mem_cons_of_mem g hr)
      rw [matchItems_cons he.1, Bool.and_eq_true, hhead, htail, List.cons.injEq]

/-- A rigid pattern matches a datum if and only if it is that datum. -/
theorem fits_iff_eq (hp : Rigid p) (hg : Formed g) : p.fits g ↔ p = g := by
  induction hp generalizing g with
  | @atom p notList bare notWildcard notEllipsis =>
    obtain ⟨kind, text, items⟩ := p
    obtain ⟨kind', text', items'⟩ := g
    have hw : (kind == .symbol && text == ascii "_") = false := notWildcard
    have hl : (kind == .list) = false := beq_false_of_ne notList
    rw [Node.fits, hw, hl]
    simp only [Bool.false_or, Bool.and_eq_true, beq_iff_eq, Bool.false_eq_true, if_false]
    constructor
    · rintro ⟨rfl, rfl⟩
      cases hg with
      | atom _ bare' => rw [show items = [] from bare, show items' = [] from bare']
      | list => exact absurd rfl notList
    · intro h
      cases h
      exact ⟨rfl, rfl⟩
  | @list items inner ih =>
    have hitems {gs : List Node} (hgs : ∀ n ∈ gs, Formed n) :
        Node.matchItems items gs ↔ items = gs :=
      matchItems_iff_eq (fun n hn => (inner n hn).isEllipsis) fun n hn _ hm => ih n hn (hgs _ hm)
    rw [fits_list]
    constructor
    · rintro ⟨hk, hm⟩
      obtain ⟨gs, rfl, hgs⟩ := hg.eq_list hk
      rw [(hitems hgs).mp hm]
    · rintro rfl
      exact ⟨rfl, (hitems fun n hn => (inner n hn).formed).mpr rfl⟩

theorem mismatch?_eq_none (hp : Rigid p) (hg : Formed g) : p.mismatch? g = none ↔ p = g := by
  rw [← fits_iff_eq hp hg, Node.mismatch?]
  split <;> simp_all

end StackC.SExpr
