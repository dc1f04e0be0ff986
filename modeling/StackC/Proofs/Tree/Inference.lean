import StackC.Proofs.Tree.Binding

/-! Which types the locals of a function have. A declarator fixes the type of its name. A name that
is used before it is declared gets its type where it first stands: behind a star, as the target of
an assignment, or anywhere else. -/
namespace StackC

/-- The stars of the declarator that mentions a name at an offset. A name that is used has none. -/
def declaredAt? (ms : List Token.Mention) (pos : Int) : Option Nat :=
  (ms.find? (·.token.pos == pos)).bind Token.Mention.stars

def Expr.standsAt (pos : Int) (e : Expr) : Bool := e.nodes.any (·.pos? == some pos)

/-- Where the node at an offset ends, the variable that first stands at another one waits for its
type: it is the target of an assignment, among these nodes, that has not ended before. -/
def awaits (ns : List Expr) (first pos : Int) : Bool :=
  ns.any fun
    | .assign q (.var p i) r => p == first && (Expr.assign q (.var p i) r).standsAt pos
    | _ => false

/-- The types of locals where the node at an offset ends. One that waits for its type is an
integer until then. -/
def localsAt (declared? : Int → Option Nat) (ns : List Expr) (pos : Int) (locals : List Local) :
    List Local :=
  locals.map fun v =>
    if (declared? v.pos).isNone && awaits ns v.pos pos then { v with type := .int } else v

/-- The type of a local, by where it is mentioned first. -/
structure Inferred (declared? : Int → Option Nat) (ns : List Expr) (locals : List Local)
    (v : Local) : Prop where
  declared : ∀ n, declared? v.pos = some n → v.type = .stars n
  dereferenced : declared? v.pos = none → ∀ q i, .deref q (.var v.pos i) ∈ ns → v.type = .stars 1
  assigned : declared? v.pos = none → ∀ q i r, .assign q (.var v.pos i) r ∈ ns →
    ∃ type, r.type? (localsAt declared? ns q locals) = some type ∧
      v.type = if type.isPointer then type else .int
  otherwise : declared? v.pos = none → (∀ q i, .deref q (.var v.pos i) ∉ ns) →
    (∀ q i r, .assign q (.var v.pos i) r ∉ ns) → v.type = .int

/-- A local of a function begins where the tokens mention its name first, and has the type that this
mention gives it. -/
structure Function.Infers (toks : List Token) (f : Function) (v : Local) : Prop where
  first : ∃ m, (f.mentions toks).find? (·.token.lit == v.name) = some m ∧ m.token.pos = v.pos
  inferred : Inferred (declaredAt? (f.mentions toks)) f.nodes f.locals v

/-- The type of an expression depends on the types of its variables only. -/
theorem Expr.type?_congr {locals locals' : List Local} (e : Expr)
    (h : ∀ p i, .var p i ∈ e.nodes →
      (getLocal? locals i).map Local.type = (getLocal? locals' i).map Local.type) :
    e.type? locals = e.type? locals' := by
  induction e using Expr.type?.induct with
  | case1 pos i => exact h pos i (List.mem_singleton_self _)
  | case2 pos x ih =>
    rw [Expr.type?, Expr.type?, ih fun p i hm => h p i (List.mem_cons_of_mem _ hm)]
  | case3 pos x ih =>
    rw [Expr.type?, Expr.type?, ih fun p i hm => h p i (List.mem_cons_of_mem _ hm)]
  | case4 pos l r ih =>
    rw [Expr.type?, Expr.type?,
      ih fun p i hm => h p i (List.mem_cons_of_mem _ (List.mem_append_left _ hm))]
  | case5 pos l r ih₁ ih₂ | case6 pos l r ih₁ ih₂ =>
    rw [Expr.type?, Expr.type?,
      ih₁ fun p i hm => h p i (List.mem_cons_of_mem _ (List.mem_append_left _ hm)),
      ih₂ fun p i hm => h p i (List.mem_cons_of_mem _ (List.mem_append_right _ hm))]
  | case7 x h₁ h₂ h₃ h₄ h₅ h₆ =>
    rw [Expr.type?.eq_7 locals x h₁ h₂ h₃ h₄ h₅ h₆, Expr.type?.eq_7 locals' x h₁ h₂ h₃ h₄ h₅ h₆]

/-- An expression whose variables have locals has a type. -/
theorem Expr.exists_type? {locals : List Local} (e : Expr)
    (h : ∀ p i, .var p i ∈ e.nodes → ∃ v, getLocal? locals i = some v) :
    ∃ type, e.type? locals = some type := by
  induction e using Expr.type?.induct with
  | case1 pos i =>
    obtain ⟨v, hv⟩ := h pos i (List.mem_singleton_self _)
    exact ⟨v.type, by rw [Expr.type?, hv, Option.map_some]⟩
  | case2 pos x ih =>
    obtain ⟨type, ht⟩ := ih fun p i hm => h p i (List.mem_cons_of_mem _ hm)
    exact ⟨type.ptr, by rw [Expr.type?, ht, Option.map_some]⟩
  | case3 pos x ih =>
    obtain ⟨type, ht⟩ := ih fun p i hm => h p i (List.mem_cons_of_mem _ hm)
    cases type with
    | int => exact ⟨.int, by simp [Expr.type?, ht]⟩
    | ptr base => exact ⟨base, by simp [Expr.type?, ht]⟩
  | case4 pos l r ih =>
    obtain ⟨type, ht⟩ :=
      ih fun p i hm => h p i (List.mem_cons_of_mem _ (List.mem_append_left _ hm))
    exact ⟨type, by rw [Expr.type?, ht]⟩
  | case5 pos l r ih₁ ih₂ | case6 pos l r ih₁ ih₂ =>
    obtain ⟨a, ha⟩ :=
      ih₁ fun p i hm => h p i (List.mem_cons_of_mem _ (List.mem_append_left _ hm))
    obtain ⟨b, hb⟩ :=
      ih₂ fun p i hm => h p i (List.mem_cons_of_mem _ (List.mem_append_right _ hm))
    exact ⟨_, by rw [Expr.type?, ha, hb]; rfl⟩
  | case7 x h₁ h₂ h₃ h₄ h₅ h₆ => exact ⟨.int, Expr.type?.eq_7 locals x h₁ h₂ h₃ h₄ h₅ h₆⟩

theorem Expr.standsAt_iff {pos : Int} {e : Expr} :
    e.standsAt pos ↔ ∃ y ∈ e.nodes, y.pos? = some pos := by
  simp [standsAt]

mutual

/-- What is inside a node of an expression is inside the expression. -/
theorem Expr.nodes_subset (x : Expr) : ∀ y ∈ x.nodes, y.nodes ⊆ x.nodes := by
  have ofCons {e : Expr} {ns : List Expr} (he : e.nodes = e :: ns)
      (hn : ∀ y ∈ ns, y.nodes ⊆ ns) : ∀ y ∈ e.nodes, y.nodes ⊆ e.nodes := by
    intro y hy
    rw [he] at hy ⊢
    rcases List.mem_cons.mp hy with rfl | hy
    · rw [he]
      exact List.Subset.refl _
    · exact List.subset_cons_of_subset e (hn y hy)
  have ofAppend {l r : Expr} (hl : ∀ y ∈ l.nodes, y.nodes ⊆ l.nodes)
      (hr : ∀ y ∈ r.nodes, y.nodes ⊆ r.nodes) :
      ∀ y ∈ l.nodes ++ r.nodes, y.nodes ⊆ l.nodes ++ r.nodes := by
    rw [List.forall_mem_append]
    exact ⟨fun y hy => List.subset_append_of_subset_left _ (hl y hy),
      fun y hy => List.subset_append_of_subset_right _ (hr y hy)⟩
  match x with
  | .absent => exact fun y hy => absurd hy List.not_mem_nil
  | .num .. | .var .. => exact ofCons rfl fun y hy => absurd hy List.not_mem_nil
  | .neg _ x | .addr _ x | .deref _ x => exact ofCons rfl x.nodes_subset
  | .binary _ _ l r | .assign _ l r => exact ofCons rfl (ofAppend l.nodes_subset r.nodes_subset)
  | .call _ _ args => exact ofCons rfl (Expr.allNodes_subset args)

theorem Expr.allNodes_subset (xs : List Expr) :
    ∀ y ∈ Expr.allNodes xs, y.nodes ⊆ Expr.allNodes xs := by
  match xs with
  | [] => exact fun y hy => absurd hy List.not_mem_nil
  | x :: xs =>
    rw [Expr.allNodes, List.forall_mem_append]
    exact ⟨fun y hy => List.subset_append_of_subset_left _ (x.nodes_subset y hy),
      fun y hy => List.subset_append_of_subset_right _ (Expr.allNodes_subset xs y hy)⟩

end

section Rule

variable {declared? : Int → Option Nat} {ns ns' : List Expr} {locals locals' : List Local}
variable {first pos j : Int} {e : Expr} {w : Local}

theorem awaits_iff : awaits ns first pos ↔ ∃ q i r, .assign q (.var first i) r ∈ ns ∧
    (Expr.assign q (.var first i) r).standsAt pos := by
  unfold awaits
  rw [List.any_eq_true]
  constructor
  · rintro ⟨e, he, h⟩
    split at h
    · next q p i r =>
      rw [Bool.and_eq_true, beq_iff_eq] at h
      obtain ⟨rfl, h⟩ := h
      exact ⟨q, i, r, he, h⟩
    · cases h
  · rintro ⟨q, i, r, he, h⟩
    exact ⟨_, he, by simp [h]⟩

/-- Only assignments to a variable make it wait. -/
theorem awaits_congr
    (h : ∀ q i r, .assign q (.var first i) r ∈ ns ↔ .assign q (.var first i) r ∈ ns') :
    awaits ns first pos = awaits ns' first pos := by
  rw [Bool.eq_iff_iff, awaits_iff, awaits_iff]
  simp only [h]

theorem awaits_cons (h : ∀ q i r, e ≠ .assign q (.var first i) r) :
    awaits (e :: ns) first pos = awaits ns first pos :=
  awaits_congr fun q i r => by rw [List.mem_cons, or_iff_right (Ne.symm (h q i r))]

/-- The type of a variable where the node at an offset ends. -/
theorem type_localsAt : (getLocal? (localsAt declared? ns pos locals) j).map Local.type =
    (getLocal? locals j).map fun v =>
      if (declared? v.pos).isNone && awaits ns v.pos pos then .int else v.type := by
  match j with
  | .negSucc _ => rfl
  | .ofNat n =>
    simp only [getLocal?, localsAt, List.getElem?_map, Option.map_map]
    congr 1
    funext v
    simp only [Function.comp_apply]
    split <;> rfl

/-- What a local is inferred from may change, as long as it says the same about it. -/
theorem Inferred.transfer (h : Inferred declared? ns locals w)
    (hd : ∀ q i, .deref q (.var w.pos i) ∈ ns' ↔ .deref q (.var w.pos i) ∈ ns)
    (ha : ∀ q i r, .assign q (.var w.pos i) r ∈ ns' ↔ .assign q (.var w.pos i) r ∈ ns)
    (ht : ∀ q i r, .assign q (.var w.pos i) r ∈ ns → ∀ p j, .var p j ∈ r.nodes →
      (getLocal? (localsAt declared? ns' q locals') j).map Local.type =
        (getLocal? (localsAt declared? ns q locals) j).map Local.type) :
    Inferred declared? ns' locals' w := by
  refine ⟨h.declared, ?_, ?_, ?_⟩
  · intro hw q i hm
    exact h.dereferenced hw q i ((hd q i).mp hm)
  · intro hw q i r hm
    have hm := (ha q i r).mp hm
    obtain ⟨type, hr, hv⟩ := h.assigned hw q i r hm
    refine ⟨type, ?_, hv⟩
    rw [← hr]
    exact r.type?_congr (ht q i r hm)
  · intro hw hd' ha'
    refine h.otherwise hw (fun q i hm => ?_) fun q i r hm => ?_
    · exact hd' q i ((hd q i).mpr hm)
    · exact ha' q i r ((ha q i r).mpr hm)

namespace Inferred

theorem of_declared {n : Nat} (h : declared? w.pos = some n) (ht : w.type = .stars n) :
    Inferred declared? ns locals w := by
  have hn : declared? w.pos ≠ none := by simp [h]
  refine ⟨fun m hm => ?_, fun h' => absurd h' hn, fun h' => absurd h' hn, fun h' => absurd h' hn⟩
  rw [h, Option.some.injEq] at hm
  rw [← hm, ht]

theorem congr (h : Inferred declared? ns locals w) (hn : ∀ e, e ∈ ns ↔ e ∈ ns') :
    Inferred declared? ns' locals w := by
  refine h.transfer (fun _ _ => (hn _).symm) (fun _ _ _ => (hn _).symm) fun q i r _ p j _ => ?_
  have haw : ∀ first, awaits ns' first q = awaits ns first q :=
    fun first => awaits_congr fun _ _ _ => (hn _).symm
  simp only [type_localsAt, haw]

end Inferred

/-- Nothing is inferred from a node: it is no star and no assignment at the first mention of a local
that is not declared. -/
def Idle (declared? : Int → Option Nat) (locals : List Local) (e : Expr) : Prop :=
  ∀ v ∈ locals, declared? v.pos = none →
    (∀ q i, e ≠ .deref q (.var v.pos i)) ∧ ∀ q i r, e ≠ .assign q (.var v.pos i) r

def Expr.givesType : Expr → Bool
  | .deref .. | .assign .. => true
  | _ => false

theorem Idle.of_givesType (h : e.givesType = false) : Idle declared? locals e := by
  refine fun v _ _ => ⟨fun q i he => ?_, fun q i r he => ?_⟩
  all_goals
    rw [he] at h
    cases h

private theorem localsAt_idle (h : Idle declared? locals e) (q : Int) :
    localsAt declared? (e :: ns) q locals = localsAt declared? ns q locals := by
  refine List.map_congr_left fun v hv => ?_
  cases hd : declared? v.pos with
  | some n => simp
  | none => rw [awaits_cons (h v hv hd).2]

theorem Inferred.idle (h : Inferred declared? ns locals w) (hw : w ∈ locals)
    (he : Idle declared? locals e) : Inferred declared? (e :: ns) locals w := by
  cases hd : declared? w.pos with
  | some n => exact .of_declared hd (h.declared n hd)
  | none =>
    obtain ⟨hderef, hassign⟩ := he w hw hd
    refine h.transfer (fun q i => ?_) (fun q i r => ?_) fun q i r _ p j _ => ?_
    · rw [List.mem_cons, or_iff_right (Ne.symm (hderef q i))]
    · rw [List.mem_cons, or_iff_right (Ne.symm (hassign q i r))]
    · rw [localsAt_idle he]

end Rule

end StackC
