import StackC.Proofs.Derivation.Phrase
import StackC.Tree.Basic
import Mathlib.Data.List.Nodup

/-! What the names of a program have to satisfy, said of the order in which they occur, and the
locals that they make up from left to right. -/
namespace StackC.Derivation

def Occurrence.isLocal (o : Occurrence) : Bool := o.role == .declared || o.role == .used

/-- The occurrences up to the next function. -/
def ownPart (occ : List Occurrence) : List Occurrence := occ.takeWhile (·.role != .function)

def functionNames (occ : List Occurrence) : List Bytes :=
  (occ.filter (·.role == .function)).map Occurrence.name

@[simp] theorem functionNames_append (a b : List Occurrence) :
    functionNames (a ++ b) = functionNames a ++ functionNames b := by
  simp [functionNames]

theorem functionNames_cons (name : Bytes) (occ : List Occurrence) :
    functionNames (⟨.function, name⟩ :: occ) = name :: functionNames occ := by
  simp [functionNames]

theorem functionNames_eq_nil {occ : List Occurrence} :
    functionNames occ = [] ↔ ∀ x ∈ occ, x.role ≠ .function := by
  simp [functionNames]

/-- No declarator of the function at hand has one of these names. -/
def Spares (names : List Bytes) (occ : List Occurrence) : Prop :=
  ∀ y ∈ ownPart occ, y.role = .declared → y.name ∉ names

/-- What the names of a program have to satisfy beyond the grammar. -/
structure SideConditions (occ : List Occurrence) : Prop where
  /-- No declarator names a local that occurs before it in the same function. -/
  declaredFirst : ∀ x rest, x :: rest <:+ occ → x.isLocal → Spares [x.name] rest
  /-- No local has the name of the scratch cell. -/
  unreserved : ∀ x ∈ occ, x.isLocal → x.name ≠ scratchName
  /-- No two functions have the same name. -/
  distinct : (functionNames occ).Nodup

/-- The locals of a function after one more name, if it may stand there. -/
def bind (known : List Bytes) (o : Occurrence) : Option (List Bytes) :=
  match o.role with
  | .function => some []
  | .callee => some known
  | .declared =>
    if o.name ∈ known ∨ o.name = scratchName then none else some (known ++ [o.name])
  | .used =>
    if o.name ∈ known then some known
    else if o.name = scratchName then none
    else some (known ++ [o.name])

/-- The locals after some names, from left to right. -/
def bindAll (known : List Bytes) (occ : List Occurrence) : Option (List Bytes) :=
  occ.foldlM bind known

@[simp] theorem bindAll_nil (known : List Bytes) : bindAll known [] = some known := rfl

@[simp] theorem bindAll_cons (known : List Bytes) (o : Occurrence) (occ : List Occurrence) :
    bindAll known (o :: occ) = (bind known o).bind fun k => bindAll k occ := rfl

@[simp] theorem bindAll_append (known : List Bytes) (a b : List Occurrence) :
    bindAll known (a ++ b) = (bindAll known a).bind fun k => bindAll k b :=
  List.foldlM_append

@[simp] theorem spares_nil (names : List Bytes) : Spares names [] := by simp [Spares, ownPart]

private theorem spares_cons {names : List Bytes} {o : Occurrence} {occ : List Occurrence} :
    Spares names (o :: occ) ↔
      o.role = .function ∨ ((o.role = .declared → o.name ∉ names) ∧ Spares names occ) := by
  by_cases hf : o.role = .function
  · simp [Spares, ownPart, hf]
  · simp [Spares, ownPart, hf]

theorem spares_append {a b : List Bytes} {occ : List Occurrence} :
    Spares (a ++ b) occ ↔ Spares a occ ∧ Spares b occ := by
  simp only [Spares, List.mem_append, not_or]
  constructor
  · intro h
    exact ⟨fun y hy hd => (h y hy hd).1, fun y hy hd => (h y hy hd).2⟩
  · rintro ⟨ha, hb⟩ y hy hd
    exact ⟨ha y hy hd, hb y hy hd⟩

private theorem declaredFirst_cons {o : Occurrence} {occ : List Occurrence} :
    (∀ x rest, x :: rest <:+ o :: occ → x.isLocal → Spares [x.name] rest) ↔
      (o.isLocal → Spares [o.name] occ) ∧
        ∀ x rest, x :: rest <:+ occ → x.isLocal → Spares [x.name] rest := by
  constructor
  · intro h
    exact ⟨h o occ List.suffix_rfl, fun x rest hs => h x rest (hs.trans (List.suffix_cons o occ))⟩
  · rintro ⟨ho, h⟩ x rest hs
    rcases List.suffix_cons_iff.mp hs with he | hs
    · cases he
      exact ho
    · exact h x rest hs

/-- The names can be bound from left to right if and only if they satisfy the conditions on
locals. -/
theorem isSome_bindAll_iff {known : List Bytes} (hk : scratchName ∉ known)
    (occ : List Occurrence) :
    (bindAll known occ).isSome ↔
      (∀ x rest, x :: rest <:+ occ → x.isLocal → Spares [x.name] rest) ∧
      (∀ x ∈ occ, x.isLocal → x.name ≠ scratchName) ∧ Spares known occ := by
  induction occ generalizing known with
  | nil => simp
  | cons o occ ih =>
    rcases o with ⟨role, name⟩
    rw [declaredFirst_cons, spares_cons]
    cases role with
    | function => simp [bind, ih, Occurrence.isLocal, Spares]
    | callee => simp [bind, ih hk, Occurrence.isLocal]
    | declared =>
      by_cases hn : name ∈ known ∨ name = scratchName
      · simp only [bindAll_cons, bind, hn]
        simp [Occurrence.isLocal]
        grind
      · rw [not_or] at hn
        have hk' : scratchName ∉ known ++ [name] := by simp [hk, Ne.symm hn.2]
        simp [bind, hn, ih hk', Occurrence.isLocal, spares_append]
        grind
    | used =>
      by_cases hn : name ∈ known
      · have hs : name ≠ scratchName := fun h => hk (h ▸ hn)
        have hm : Spares known occ → Spares [name] occ := by
          intro h y hy hd he
          exact h y hy hd (List.mem_singleton.mp he ▸ hn)
        simp [bind, hn, ih hk, Occurrence.isLocal, hs]
        grind
      · by_cases hs : name = scratchName
        · simp [bind, hs, hk, Occurrence.isLocal]
        · have hk' : scratchName ∉ known ++ [name] := by simp [hk, Ne.symm hs]
          simp [bind, hn, hs, ih hk', Occurrence.isLocal, spares_append]
          grind

/-- Each local has a name of its own, other than that of the scratch cell. -/
theorem nodup_of_bindAll {known names : List Bytes} {occ : List Occurrence}
    (h : bindAll known occ = some names) (hk : (scratchName :: known).Nodup) :
    (scratchName :: names).Nodup := by
  induction occ generalizing known with
  | nil => exact Option.some.inj h ▸ hk
  | cons o occ ih =>
    rw [bindAll_cons, Option.bind_eq_some_iff] at h
    obtain ⟨known', ho, h⟩ := h
    refine ih h ?_
    have more {name : Bytes} (hn : name ∉ known) (hs : name ≠ scratchName) :
        (scratchName :: (known ++ [name])).Nodup := by
      have hd : List.Disjoint (scratchName :: known) [name] := by
        simp [hn, hs]
      rw [← List.cons_append]
      exact List.Nodup.append hk (List.nodup_singleton name) hd
    unfold bind at ho
    grind

end StackC.Derivation
