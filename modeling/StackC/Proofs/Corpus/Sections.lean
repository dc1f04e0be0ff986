import Mathlib.Data.List.Forall2
import Mathlib.Tactic.ByContra
import StackC.Corpus.TestCase

/-! The sections of a document: what makes them test cases, and what is wrong with them. -/
namespace StackC.Corpus

/-- The name that a heading gives to a case. -/
def caseName? : Block → Option Bytes
  | .heading text => Text.after? caseMark text
  | .fence _ => none

/-- A fence that is no prose. -/
def tagged? : Block → Option Fence
  | .heading _ => none
  | .fence f => if f.language.isEmpty then none else some f

def IsProgram (f : Fence) : Prop := f.language = programLanguage

def IsExpectation (f : Fence) : Prop := ∃ e : Expectation, f.language = e.language

/-- A case as it is written: its name, and the fences from its heading to the next. -/
structure Section where
  name : Bytes
  fences : List Fence

/-- The fences before the first case. -/
def leading (bs : List Block) : List Fence :=
  (bs.takeWhile fun b => (caseName? b).isNone).filterMap tagged?

def sections : List Block → List Section
  | [] => []
  | b :: bs =>
    match caseName? b with
    | none => sections bs
    | some name => ⟨name, leading bs⟩ :: sections bs

def lastSection (bs : List Block) : Option Section := (sections bs).getLast?

/-- One program, and behind it one expectation or more. -/
def Section.Complete (s : Section) : Prop :=
  ∃ program expectations, s.fences = program :: expectations ∧ IsProgram program ∧
    expectations ≠ [] ∧ ∀ f ∈ expectations, IsExpectation f

/-- Blocks that are a list of cases. -/
structure WellFormed (bs : List Block) : Prop where
  known : ∀ f, .fence f ∈ bs → f.language ≠ [] → IsProgram f ∨ IsExpectation f
  placed : ∀ before f after, bs = before ++ .fence f :: after → f.language ≠ [] →
    ∃ text, .heading text ∈ before ∧ caseMark <+: text
  complete : ∀ s ∈ sections bs, s.Complete
  patterns : ∀ f, .fence f ∈ bs → f.language = Expectation.ast.language →
    ∃ n, SExpr.read f.content = .ok n

/-- The assertion is what the fence says. -/
structure States (f : Fence) (a : Assertion) : Prop where
  language : f.language = a.expectation.language
  content : a.content = f.content
  line : a.line = f.lineNumber
  pattern : a.expectation = .ast → ∃ n, SExpr.read f.content = .ok n ∧ a.pattern = some n
  noPattern : a.expectation ≠ .ast → a.pattern = none

/-- The case is what the section says: its first fence is the program, and each of the others is one
assertion. -/
def Section.Gives (s : Section) (c : TestCase) : Prop :=
  c.name = s.name ∧ ∃ program expectations, s.fences = program :: expectations ∧
    IsProgram program ∧ c.input = program.content ∧ c.assertions ≠ [] ∧
    List.Forall₂ States expectations c.assertions

/-- What is wrong with the next block, or with the end of the document, behind blocks whose last
section is the given one. A section that is not complete is wrong where it ends. -/
inductive Violates : Option Section → Option Block → Fault → Prop
  | unknownLanguage {s : Option Section} {f : Fence} (tagged : f.language ≠ [])
      (program : ¬IsProgram f) (expectation : ¬IsExpectation f) :
      Violates s (some (.fence f)) (.unknownLanguage f.lineNumber f.language)
  | outsideCase {f : Fence} (known : IsProgram f ∨ IsExpectation f) :
      Violates none (some (.fence f)) (.outsideCase f.lineNumber f.language)
  | secondProgram {s : Section} {f : Fence} (program : IsProgram f)
      (given : ∃ p ∈ s.fences, IsProgram p) :
      Violates (some s) (some (.fence f)) (.secondProgram f.lineNumber s.name)
  | beforeProgram {s : Section} {f : Fence} (expectation : IsExpectation f)
      (missing : ∀ p ∈ s.fences, ¬IsProgram p) :
      Violates (some s) (some (.fence f)) (.beforeProgram f.lineNumber s.name)
  | badPattern {s : Section} {f : Fence} {e : SExpr.ReadError}
      (ast : f.language = Expectation.ast.language) (given : ∃ p ∈ s.fences, IsProgram p)
      (rejected : SExpr.read f.content = .error e) :
      Violates (some s) (some (.fence f)) (.badPattern f.lineNumber s.name e)
  | noProgram {s : Section} {next : Option Block} (ends : ∀ b ∈ next, (caseName? b).isSome)
      (missing : ∀ p ∈ s.fences, ¬IsProgram p) : Violates (some s) next (.noProgram s.name)
  | noAssertion {s : Section} {next : Option Block} (ends : ∀ b ∈ next, (caseName? b).isSome)
      (given : ∃ p ∈ s.fences, IsProgram p) (missing : ∀ f ∈ s.fences, ¬IsExpectation f) :
      Violates (some s) next (.noAssertion s.name)

/-- The error is the first fault of some blocks behind others, and says whether a block has it or
the end of the document. -/
def FirstFault (before bs : List Block) (e : ExtractError) : Prop :=
  ∃ k ≤ bs.length, Violates (lastSection (before ++ bs.take k)) bs[k]? e.fault ∧
    e.inside = decide (k < bs.length) ∧
    ∀ j < k, ∀ fault, ¬Violates (lastSection (before ++ bs.take j)) bs[j]? fault

section Languages

variable {f : Fence}

theorem IsExpectation.not_isProgram (h : IsExpectation f) : ¬IsProgram f := by
  obtain ⟨e, he⟩ := h
  rw [IsProgram, he]
  cases e <;> decide

theorem language_ne_nil (h : IsProgram f ∨ IsExpectation f) : f.language ≠ [] := by
  rcases h with hp | ⟨e, he⟩
  · rw [hp]
    decide
  · rw [he]
    cases e <;> decide

theorem tagged?_fence (h : f.language ≠ []) : tagged? (.fence f) = some f := by
  simp [tagged?, h]

theorem isSome_caseName?_heading {text : Bytes} :
    (caseName? (.heading text)).isSome ↔ caseMark <+: text := by
  rw [caseName?, Text.after?, ← List.isPrefixOf_iff_prefix]
  split <;> simp_all

end Languages

section Sections

variable {b : Block} {f : Fence} {bs before after : List Block} {s : Option Section}

def Section.add (s : Section) (fs : List Fence) : Section := ⟨s.name, s.fences ++ fs⟩

@[simp] theorem Section.add_nil (s : Section) : s.add [] = s := by
  rw [add, List.append_nil]

@[simp] theorem Section.add_add (s : Section) (fs gs : List Fence) :
    (s.add fs).add gs = s.add (fs ++ gs) := by
  simp only [add, List.append_assoc]

theorem leading_cons_case {name : Bytes} (h : caseName? b = some name) :
    leading (b :: bs) = [] := by
  simp [leading, h]

theorem leading_cons (h : caseName? b = none) :
    leading (b :: bs) = (tagged? b).toList ++ leading bs := by
  rw [leading, List.takeWhile_cons_of_pos (by rw [h]; rfl)]
  cases ht : tagged? b with
  | none =>
    rw [List.filterMap_cons_none ht]
    rfl
  | some f =>
    rw [List.filterMap_cons_some ht]
    rfl

theorem sections_cons_case {name : Bytes} (h : caseName? b = some name) :
    sections (b :: bs) = ⟨name, leading bs⟩ :: sections bs := by
  rw [sections, h]

theorem sections_cons (h : caseName? b = none) : sections (b :: bs) = sections bs := by
  rw [sections, h]

/-- The sections that the blocks to come complete, given the one that is being read. -/
def pending (s : Option Section) (bs : List Block) : List Section :=
  (s.map (·.add (leading bs))).toList ++ sections bs

/-- The sections that a block ends, and the section behind it. -/
def follow (s : Option Section) (b : Block) : List Section × Option Section :=
  match caseName? b with
  | some name => (s.toList, some ⟨name, []⟩)
  | none => ([], s.map (·.add (tagged? b).toList))

@[simp] theorem pending_nil : pending s [] = s.toList := by
  cases s with
  | none => rfl
  | some s => simp [pending, leading, sections]

theorem pending_cons : pending s (b :: bs) = (follow s b).1 ++ pending (follow s b).2 bs := by
  cases h : caseName? b with
  | none =>
    simp only [pending, follow, h, leading_cons h, sections_cons h, Option.map_map,
      List.nil_append]
    cases s with
    | none => rfl
    | some s => simp
  | some name =>
    simp only [pending, follow, h, leading_cons_case h, sections_cons_case h]
    cases s with
    | none => rfl
    | some s => simp [Section.add]

private theorem leading_append (h : sections before = []) :
    leading (before ++ after) = leading before ++ leading after := by
  induction before with
  | nil => rfl
  | cons b bs ih =>
    cases hb : caseName? b with
    | none =>
      rw [sections_cons hb] at h
      rw [List.cons_append, leading_cons hb, leading_cons hb, ih h, List.append_assoc]
    | some name =>
      rw [sections_cons_case hb] at h
      cases h

private theorem leading_append_of_ne (h : sections before ≠ []) :
    leading (before ++ after) = leading before := by
  induction before with
  | nil => exact absurd rfl h
  | cons b bs ih =>
    cases hb : caseName? b with
    | none =>
      rw [sections_cons hb] at h
      rw [List.cons_append, leading_cons hb, leading_cons hb, ih h]
    | some name => rw [List.cons_append, leading_cons_case hb, leading_cons_case hb]

/-- Only the last section grows. -/
theorem sections_append :
    sections (before ++ after) =
      (sections before).dropLast ++ pending (lastSection before) after := by
  induction before with
  | nil => rfl
  | cons b bs ih =>
    cases hb : caseName? b with
    | none =>
      rw [List.cons_append, sections_cons hb, lastSection, sections_cons hb, ih, lastSection]
    | some name =>
      rw [List.cons_append, sections_cons_case hb, lastSection, sections_cons_case hb, ih,
        lastSection]
      cases hbs : sections bs with
      | nil =>
        rw [leading_append hbs]
        rfl
      | cons s ss =>
        rw [leading_append_of_ne (by rw [hbs]; exact List.cons_ne_nil s ss),
          List.getLast?_cons_cons, List.dropLast_cons_cons, List.cons_append]

theorem lastSection_append : lastSection (before ++ [b]) = (follow (lastSection before) b).2 := by
  rw [lastSection, sections_append, pending_cons, pending_nil]
  cases hlast : (follow (lastSection before) b).2 with
  | some s => simp
  | none =>
    have hcase : caseName? b = none := by
      cases h : caseName? b with
      | none => rfl
      | some name =>
        rw [follow, h] at hlast
        cases hlast
    have hnone : lastSection before = none := by
      rw [follow, hcase] at hlast
      exact Option.map_eq_none_iff.mp hlast
    have hnil : sections before = [] := List.getLast?_eq_none_iff.mp hnone
    simp [follow, hcase, hnil]

theorem mem_sections_append {s : Section} (h : lastSection before = some s)
    (after : List Block) :
    s.add (leading after) ∈ sections (before ++ after) := by
  rw [sections_append, h]
  simp [pending]

private theorem sections_eq_nil : sections bs = [] ↔ ∀ b ∈ bs, caseName? b = none := by
  induction bs with
  | nil => simp [sections]
  | cons b bs ih =>
    cases h : caseName? b with
    | none => simp [sections_cons h, ih, h]
    | some name => simp [sections_cons_case h, h]

theorem map_name_sections : (sections bs).map Section.name = bs.filterMap caseName? := by
  induction bs with
  | nil => rfl
  | cons b bs ih =>
    cases h : caseName? b with
    | none => rw [sections_cons h, List.filterMap_cons_none h, ih]
    | some name => rw [sections_cons_case h, List.filterMap_cons_some h, List.map_cons, ih]

/-- Every fence that is no prose is in its section, or before all of them. -/
theorem leading_append_sections :
    leading bs ++ (sections bs).flatMap Section.fences = bs.filterMap tagged? := by
  induction bs with
  | nil => rfl
  | cons b bs ih =>
    cases h : caseName? b with
    | none =>
      rw [leading_cons h, sections_cons h, List.append_assoc, ih]
      cases ht : tagged? b with
      | none => rw [List.filterMap_cons_none ht, Option.toList_none, List.nil_append]
      | some f => rw [List.filterMap_cons_some ht, Option.toList_some, List.singleton_append]
    | some name =>
      have ht : tagged? b = none := by
        cases b with
        | heading text => rfl
        | fence f => cases h
      rw [leading_cons_case h, sections_cons_case h, List.nil_append, List.flatMap_cons, ih,
        List.filterMap_cons_none ht]

theorem leading_cons_fence (h : f.language ≠ []) : leading (.fence f :: bs) = f :: leading bs := by
  rw [leading_cons rfl]
  simp [tagged?, h]

theorem lastSection_eq_none :
    lastSection bs = none ↔ ∀ text, .heading text ∈ bs → ¬caseMark <+: text := by
  rw [lastSection, List.getLast?_eq_none_iff, sections_eq_nil]
  constructor
  · intro h text htext hmark
    have hcase := isSome_caseName?_heading.mpr hmark
    rw [h _ htext] at hcase
    cases hcase
  · intro h b hb
    cases b with
    | fence f => rfl
    | heading text =>
      rw [← Option.not_isSome_iff_eq_none, isSome_caseName?_heading]
      exact h text hb

theorem mem_sections_of_ends {s : Section} (h : lastSection before = some s)
    (ends : ∀ b ∈ after.head?, (caseName? b).isSome) : s ∈ sections (before ++ after) := by
  have hleading : leading after = [] := by
    cases after with
    | nil => rfl
    | cons b bs =>
      obtain ⟨name, hname⟩ := Option.isSome_iff_exists.mp (ends b rfl)
      exact leading_cons_case hname
  have hmem := mem_sections_append h after
  rwa [hleading, Section.add_nil] at hmem

end Sections

section Faults

variable {b : Block} {f : Fence} {bs before after : List Block} {s : Section} {cs : List TestCase}
  {fault : Fault} {e : ExtractError}

theorem States.isExpectation {a : Assertion} (h : States f a) : IsExpectation f :=
  ⟨a.expectation, h.language⟩

private theorem isExpectation_of_states {fs : List Fence} {as : List Assertion}
    (h : List.Forall₂ States fs as) : ∀ f ∈ fs, IsExpectation f :=
  ((List.forall₂_and_left _ _).mp (h.imp fun _ _ hs => ⟨hs.isExpectation, hs⟩)).1

theorem Section.Gives.complete {c : TestCase} (h : s.Gives c) : s.Complete := by
  obtain ⟨-, program, expectations, hfences, hprogram, -, hne, hstates⟩ := h
  refine ⟨program, expectations, hfences, hprogram, ?_, isExpectation_of_states hstates⟩
  rintro rfl
  exact hne (List.forall₂_nil_left_iff.mp hstates)

theorem map_name_of_gives {ss : List Section} (h : List.Forall₂ Section.Gives ss cs) :
    cs.map TestCase.name = ss.map Section.name := by
  induction h with
  | nil => rfl
  | cons hfirst _ ih => rw [List.map_cons, List.map_cons, hfirst.1, ih]

/-- A fence of a complete section is its program, or stands behind it. -/
theorem Section.Complete.of_add {fs : List Fence} (h : (s.add (f :: fs)).Complete) :
    (IsProgram f ∧ s.fences = []) ∨ (IsExpectation f ∧ ∃ p ∈ s.fences, IsProgram p) := by
  obtain ⟨program, expectations, hfences, hprogram, -, hall⟩ := h
  simp only [Section.add] at hfences
  cases hs : s.fences with
  | nil =>
    rw [hs] at hfences
    cases hfences
    exact .inl ⟨hprogram, rfl⟩
  | cons p ps =>
    rw [hs, List.cons_append] at hfences
    obtain ⟨rfl, rfl⟩ := List.cons.inj hfences
    refine .inr ⟨hall f ?_, p, List.mem_cons_self, hprogram⟩
    exact List.mem_append_right ps List.mem_cons_self

/-- Nothing is wrong with a list of cases at any place. -/
theorem WellFormed.not_violates (h : WellFormed (before ++ after)) :
    ¬Violates (lastSection before) after.head? fault := by
  have following (f : Fence) (hf : after.head? = some (.fence f)) :
      ∃ rest, after = .fence f :: rest := List.head?_eq_some_iff.mp hf
  have grows (s : Section) (f : Fence) (hs : lastSection before = some s)
      (hf : after.head? = some (.fence f)) (hlang : f.language ≠ []) :
      (IsProgram f ∧ s.fences = []) ∨ (IsExpectation f ∧ ∃ p ∈ s.fences, IsProgram p) := by
    obtain ⟨rest, rfl⟩ := following f hf
    have hmem := mem_sections_append hs (.fence f :: rest)
    rw [leading_cons_fence hlang] at hmem
    exact (h.complete _ hmem).of_add
  intro hv
  generalize hs : lastSection before = s at hv
  generalize hb : after.head? = next at hv
  cases hv with
  | unknownLanguage tagged program expectation =>
    have hmem := List.mem_append_right before (List.mem_of_mem_head? hb)
    rcases h.known _ hmem tagged with hp | he
    · exact program hp
    · exact expectation he
  | outsideCase known =>
    obtain ⟨rest, rfl⟩ := following _ hb
    obtain ⟨text, htext, hmark⟩ := h.placed before _ rest rfl (language_ne_nil known)
    exact lastSection_eq_none.mp hs text htext hmark
  | secondProgram program given =>
    rcases grows _ _ hs hb (language_ne_nil (.inl program)) with ⟨-, hnil⟩ | ⟨he, -⟩
    · obtain ⟨p, hp, -⟩ := given
      rw [hnil] at hp
      cases hp
    · exact he.not_isProgram program
  | beforeProgram expectation missing =>
    rcases grows _ _ hs hb (language_ne_nil (.inr expectation)) with ⟨hp, -⟩ | ⟨-, p, hp, hprogram⟩
    · exact expectation.not_isProgram hp
    · exact missing p hp hprogram
  | badPattern ast given rejected =>
    have hmem := List.mem_append_right before (List.mem_of_mem_head? hb)
    obtain ⟨n, hn⟩ := h.patterns _ hmem ast
    rw [rejected] at hn
    cases hn
  | noProgram ends missing =>
    rw [← hb] at ends
    obtain ⟨p, es, hfences, hp, -⟩ := h.complete _ (mem_sections_of_ends hs ends)
    exact missing p (hfences ▸ List.mem_cons_self) hp
  | noAssertion ends given missing =>
    rw [← hb] at ends
    obtain ⟨p, es, hfences, -, hne, hall⟩ := h.complete _ (mem_sections_of_ends hs ends)
    obtain ⟨f, hf⟩ := List.exists_mem_of_ne_nil es hne
    exact missing f (hfences ▸ List.mem_cons_of_mem p hf) (hall f hf)

theorem firstFault_nil :
    FirstFault before [] e ↔ Violates (lastSection before) none e.fault ∧ e.inside = false := by
  constructor
  · rintro ⟨k, hk, hviolates, hinside, -⟩
    cases Nat.le_zero.mp hk
    exact ⟨by simpa using hviolates, hinside⟩
  · rintro ⟨hviolates, hinside⟩
    refine ⟨0, Nat.le_refl 0, by simpa using hviolates, hinside, ?_⟩
    intro j hj
    cases hj

/-- The first fault is that of the first block, or the block has none. -/
theorem firstFault_cons :
    FirstFault before (b :: bs) e ↔
      (Violates (lastSection before) (some b) e.fault ∧ e.inside = true) ∨
      ((∀ fault, ¬Violates (lastSection before) (some b) fault) ∧
        FirstFault (before ++ [b]) bs e) := by
  constructor
  · rintro ⟨k, hk, hviolates, hinside, hfirst⟩
    cases k with
    | zero => exact .inl ⟨by simpa using hviolates, by simpa using hinside⟩
    | succ k =>
      refine .inr ⟨fun fault => by simpa using hfirst 0 (Nat.succ_pos k) fault, k,
        Nat.le_of_succ_le_succ hk, by simpa using hviolates, by simpa using hinside, ?_⟩
      intro j hj fault
      simpa using hfirst (j + 1) (Nat.succ_lt_succ hj) fault
  · rintro (⟨hviolates, hinside⟩ | ⟨hclean, k, hk, hviolates, hinside, hfirst⟩)
    · refine ⟨0, Nat.zero_le _, by simpa using hviolates, by simpa using hinside, ?_⟩
      intro j hj
      cases hj
    · refine ⟨k + 1, Nat.succ_le_succ hk, by simpa using hviolates, by simpa using hinside, ?_⟩
      intro j hj fault
      cases j with
      | zero => simpa using hclean fault
      | succ j => simpa using hfirst j (Nat.lt_of_succ_lt_succ hj) fault

end Faults

end StackC.Corpus
