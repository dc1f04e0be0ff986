import Mathlib.Data.List.Basic
import Mathlib.Data.List.Nodup
import StackC.Asm.HelperTable
import StackC.Proofs.Outcome

/-! Which tables of routines are accepted, what becomes of their entries, and which entry the fault
of a refused table is about. -/
namespace StackC

def comparisonTexts : List Bytes := ["==", "!=", "<", "<="].map ascii

theorem BinaryOp.isComparison_iff {op : BinaryOp} :
    op.isComparison ↔ op.text ∈ comparisonTexts := by
  cases op with
  | invalid n =>
    -- No comparison begins like the text of a number that is no operator.
    have hb : ∀ t ∈ comparisonTexts, t.head? ≠ some (byte 'B') := by decide
    refine ⟨fun h => ?_, fun h => absurd rfl (hb _ h)⟩
    cases h
  | _ => decide

namespace Asm

section Comparisons

variable {op : BinaryOp} {t : Bytes}

/-- The comparison with a spelling. There are no two. -/
theorem comparison?_eq_some : comparison? t = some op ↔ t ∈ comparisonTexts ∧ op.text = t := by
  rw [comparison?, Option.filter_eq_some_iff, BinaryOp.ofText?]
  constructor
  · rintro ⟨hf, hc⟩
    obtain rfl : op.text = t := by simpa using List.find?_some hf
    exact ⟨BinaryOp.isComparison_iff.mp hc, rfl⟩
  · rintro ⟨ht, rfl⟩
    have hc := BinaryOp.isComparison_iff.mpr ht
    refine ⟨?_, hc⟩
    cases op with
    | eq | ne | lt | le => rfl
    | _ => cases hc

private theorem comparison?_eq_none : comparison? t = none ↔ t ∉ comparisonTexts := by
  have hall : ∀ t ∈ comparisonTexts, comparison? t ≠ none := by decide
  refine ⟨fun h ht => hall t ht h, fun ht => ?_⟩
  rw [Option.eq_none_iff_forall_not_mem]
  exact fun op ho => ht (comparison?_eq_some.mp ho).1

end Comparisons

/-- The entry is right in itself. -/
structure Entry.Sound (e : Entry) : Prop where
  named : e.name ≠ []
  compares : e.op ∈ comparisonTexts
  filled : e.body ≠ []

/-- Each entry is right in itself, and no two are for the same operator. -/
structure Fitting (table : List Entry) : Prop where
  sound : ∀ e ∈ table, e.Sound
  distinct : (table.map Entry.op).Nodup

/-- What is wrong with an entry behind others, and the wording of it. Of several faults the first in
this order counts. -/
inductive Entry.Fails (before : List Entry) (e : Entry) : TableFault → Bytes → Prop
  | unnamed (noName : e.name = []) :
      Fails before e (.nameRequired before.length)
        (ascii "helper table: entry " ++ Text.decimalNat before.length ++
          ascii ": name is required")
  | unknown (named : e.name ≠ []) (notOne : e.op ∉ comparisonTexts) :
      Fails before e (.notComparison e.name e.op)
        (ascii "helper table: " ++ e.name ++ ascii ": " ++ Text.quote e.op ++
          ascii " is not a comparison operator")
  | repeated {other : Entry} (named : e.name ≠ []) (compares : e.op ∈ comparisonTexts)
      (earlier : other ∈ before) (same : other.op = e.op) :
      Fails before e (.handledBefore e.name e.op other.name)
        (ascii "helper table: " ++ e.name ++ ascii ": operator " ++ Text.quote e.op ++
          ascii " already handled by " ++ other.name)
  | empty (named : e.name ≠ []) (compares : e.op ∈ comparisonTexts)
      (new : e.op ∉ before.map Entry.op) (noBody : e.body = []) :
      Fails before e (.emptyBody e.name) (ascii "helper table: " ++ e.name ++ ascii ": empty body")

/-- The fault is that of the first entry with one. -/
inductive Refuses : List Entry → TableFault → Prop
  | intro {before after : List Entry} {e : Entry} {fault : TableFault} {message : Bytes}
      (fitting : Fitting before) (fails : e.Fails before fault message)
      (worded : fault.message? = some message) : Refuses (before ++ e :: after) fault

/-- The entry that a routine was written as. -/
def Helper.entry (h : Helper) : Entry := { name := h.name, op := h.op.text, body := h.body }

def Entry.code (e : Entry) : List Line := { label := e.name } :: e.body.map Line.ofText

/-- What the outcome of a check says of a table. -/
structure Judges (table : List Entry) (outcome : Except TableFault (List Helper)) : Prop where
  accepts : (∃ hs, outcome = .ok hs) ↔ Fitting table
  entries : ∀ hs, outcome = .ok hs → hs.map Helper.entry = table
  code : ∀ hs, outcome = .ok hs → hs.map Helper.code = table.map Entry.code
  refuses : ∀ fault, outcome = .error fault → Refuses table fault

section Table

variable {before after table : List Entry} {e : Entry} {fault : TableFault} {message : Bytes}

theorem Fitting.snoc (h : Fitting before) (hs : e.Sound) (hn : e.op ∉ before.map Entry.op) :
    Fitting (before ++ [e]) where
  sound := List.forall_mem_append.mpr ⟨h.sound, List.forall_mem_singleton.mpr hs⟩
  distinct := by
    rw [List.map_append, List.map_singleton]
    exact List.nodup_append'.mpr
      ⟨h.distinct, List.nodup_singleton _, List.disjoint_singleton.mpr hn⟩

/-- An entry with a fault is wrong in itself or repeats an operator. -/
theorem Entry.Fails.not_fitting (h : e.Fails before fault message) :
    ¬Fitting (before ++ e :: after) := by
  intro hf
  have hs : e.Sound := hf.sound e (by simp)
  cases h with
  | unnamed noName => exact hs.named noName
  | unknown named notOne => exact notOne hs.compares
  | empty named compares new noBody => exact hs.filled noBody
  | @repeated other named compares earlier same =>
    have hd := hf.distinct
    rw [List.map_append, List.map_cons] at hd
    exact List.disjoint_of_nodup_append hd (List.mem_map_of_mem earlier) (by simp [same])

theorem Refuses.not_fitting (h : Refuses table fault) : ¬Fitting table := by
  cases h with
  | intro _ fails => exact fails.not_fitting

/-- What a check says of an entry behind others. -/
inductive Entry.Checked (before : List Entry) (e : Entry) : Except TableFault Helper → Prop
  | ok {h : Helper} (kept : h.entry = e) (sound : e.Sound) (new : e.op ∉ before.map Entry.op) :
      Checked before e (.ok h)
  | error {fault : TableFault} {message : Bytes} (fails : e.Fails before fault message)
      (worded : fault.message? = some message) : Checked before e (.error fault)

/-- A routine is for a comparison if and only if its entry has the spelling. -/
theorem Helper.op_beq {h : Helper} {op : BinaryOp} (hc : op.text ∈ comparisonTexts) :
    h.op == op ↔ h.entry.op = op.text := by
  rw [beq_iff_eq]
  refine ⟨fun he => he ▸ rfl, fun he => ?_⟩
  have hsame := comparison?_eq_some.mpr ⟨hc, he⟩
  exact Option.some.inj (hsame.symm.trans (comparison?_eq_some.mpr ⟨hc, rfl⟩))

theorem Entry.checked (e : Entry) (done : List Helper) :
    e.Checked (done.map Helper.entry) (e.check done.length done) := by
  unfold Entry.check
  by_cases hname : e.name = []
  · rw [if_pos (List.isEmpty_iff.mpr hname), ← List.length_map Helper.entry]
    exact .error (.unnamed hname) rfl
  rw [if_neg (mt List.isEmpty_iff.mp hname)]
  cases hop : comparison? e.op with
  | none => exact .error (.unknown hname (comparison?_eq_none.mp hop)) rfl
  | some op =>
    obtain ⟨hc, ht⟩ := comparison?_eq_some.mp hop
    have beq {h : Helper} : h.op == op ↔ h.entry.op = e.op := by
      rw [← ht] at hc ⊢
      exact Helper.op_beq hc
    simp only
    cases hf : done.find? (·.op == op) with
    | some other =>
      have hm := List.mem_map_of_mem (f := Helper.entry) (List.mem_of_find?_eq_some hf)
      have hs := List.find?_some hf
      exact .error (.repeated hname hc hm (beq.mp hs)) rfl
    | none =>
      have hnew : e.op ∉ (done.map Helper.entry).map Entry.op := by
        rw [List.map_map, List.mem_map]
        rintro ⟨h, hh, he⟩
        exact List.find?_eq_none.mp hf h hh (beq.mpr he)
      by_cases hbody : e.body = []
      · simp only [hbody, List.isEmpty_nil, if_true]
        exact .error (.empty hname hc hnew hbody) rfl
      · simp only [List.isEmpty_iff, hbody, if_false]
        refine .ok ?_ ⟨hname, hc, hbody⟩ hnew
        rw [Helper.entry, ht]

/-- What the check of the entries behind others says of all of them. -/
inductive Concludes (table : List Entry) : Except TableFault (List Helper) → Prop
  | ok {hs : List Helper} (kept : hs.map Helper.entry = table) (fitting : Fitting table) :
      Concludes table (.ok hs)
  | error {fault : TableFault} (refused : Refuses table fault) : Concludes table (.error fault)

private theorem checkEntries_concludes {done : List Helper} (hd : Fitting (done.map Helper.entry))
    (rest : List Entry) :
    Concludes (done.map Helper.entry ++ rest) (checkEntries done (rest.map some)) := by
  induction rest generalizing done with
  | nil =>
    rw [List.append_nil]
    exact .ok rfl hd
  | cons e rest ih =>
    have hc := e.checked done
    rw [List.map_cons, checkEntries]
    generalize e.check done.length done = outcome at hc
    cases hc with
    | error fails worded => exact .error (.intro hd fails worded)
    | @ok h kept sound new =>
      have hs : (done ++ [h]).map Helper.entry = done.map Helper.entry ++ [e] := by
        rw [List.map_append, List.map_singleton, kept]
      have hdone : Fitting ((done ++ [h]).map Helper.entry) := hs ▸ hd.snoc sound new
      have hrest := ih hdone
      rwa [hs, List.append_assoc, List.singleton_append] at hrest

theorem Concludes.judges {outcome : Except TableFault (List Helper)} (h : Concludes table outcome) :
    Judges table outcome := by
  cases h with
  | @ok hs kept fitting =>
    refine ⟨⟨fun _ => fitting, fun _ => ⟨hs, rfl⟩⟩, ?_, ?_, ?_⟩
    · rintro _ ⟨⟩
      exact kept
    · rintro _ ⟨⟩
      rw [← kept, List.map_map]
      rfl
    · rintro _ ⟨⟩
  | @error fault refused =>
    refine ⟨⟨?_, fun h => absurd h refused.not_fitting⟩, ?_, ?_, ?_⟩
    · rintro ⟨_, ⟨⟩⟩
    · rintro _ ⟨⟩
    · rintro _ ⟨⟩
    · rintro _ ⟨⟩
      exact refused

end Table

/-- A table is accepted if and only if each entry has a name, a comparison and a body, and no two
are for the same comparison. Its routines are then the entries in order. Otherwise the fault is that
of the first entry with one. This is so for whatever text it is decoded from. -/
theorem readTable_judges (table : List Entry) :
    Judges table (checkEntries [] (table.map some)) ∧
      ∀ decode text, decode text = some (table.map some) →
        Judges table (readTableBy decode text) := by
  have hfit : Fitting (([] : List Helper).map Helper.entry) := ⟨by simp, List.nodup_nil⟩
  have hj := (checkEntries_concludes hfit table).judges
  refine ⟨hj, fun decode text h => ?_⟩
  rw [readTableBy, h]
  exact hj

/-- Two entries for one operator. The second has no body either. -/
def twoLess : Bytes := ascii "- name: a\n  op: \"<\"\n  body: [RET]\n- name: b\n  op: \"<\"\n"

def twoLessTable : List Entry :=
  [{ name := ascii "a", op := ascii "<", body := [ascii "RET"] },
    { name := ascii "b", op := ascii "<" }]

/-- A decoder that knows one text. -/
def decodeTwoLess (t : Bytes) : Option (List (Option Entry)) :=
  if t = twoLess then some (twoLessTable.map some) else none

/-- The second entry repeats an operator. That is said before its body is looked at. -/
theorem readTable_judges_twoLess :
    Judges twoLessTable (readTableBy decodeTwoLess twoLess) ∧ readTableBy decodeTwoLess twoLess =
      .error (.handledBefore (ascii "b") (ascii "<") (ascii "a")) := by
  have hd : decodeTwoLess twoLess = some (twoLessTable.map some) := if_pos rfl
  refine ⟨(readTable_judges twoLessTable).2 decodeTwoLess twoLess hd, ?_⟩
  rw [readTableBy, hd]
  rfl

/-- The table of the compiler itself. -/
def compilerTable : List Entry :=
  let entry (name op : String) (body : List String) : Entry :=
    { name := ascii name, op := ascii op, body := body.map ascii }
  [entry "le" "<" ["SUB", "JN %le.less", "POP R0", "LOAD 0", "JMP %le.end", "%le.less", "POP R0",
      "LOAD 1", "%le.end", "RET"],
    entry "leq" "<=" ["SUB", "JN %leq.lesseq", "JZ %leq.lesseq", "POP R0", "LOAD 0",
      "JMP %leq.end", "%leq.lesseq", "POP R0", "LOAD 1", "%leq.end", "RET"],
    entry "ne" "!=" ["EQU", "JZ %ne.neq", "POP R0", "LOAD 0", "JMP %ne.end", "%ne.neq", "POP R0",
      "LOAD 1", "%ne.end", "RET"]]

/-- The routines of the compiler are those of its table, line by line. -/
theorem checkEntries_compilerTable :
    checkEntries [] (compilerTable.map some) = .ok (Routine.all.map Routine.helper) ∧
      ∀ r ∈ Routine.all, r.helper.code = r.code.map Instr.line := by
  decide +kernel

end Asm

end StackC
