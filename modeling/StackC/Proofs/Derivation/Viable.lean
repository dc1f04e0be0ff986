import StackC.Proofs.Derivation.Blocked
import StackC.Proofs.Derivation.Renaming
import StackC.Proofs.Compile.Located

/-! The place of a syntax error: the tokens before it begin some program, and with the token there
they begin none. -/
namespace StackC

/-- The wording tells that a message is about the grammar. -/
theorem Cause.isSyntax_of_message {cause : Cause}
    (h : ascii "expected " <+: cause.message ∨ cause.message = ascii "extra token") :
    cause.isSyntax := by
  have hh : cause.message.head? = some 101 := by
    rcases h with ⟨rest, hr⟩ | h
    · rw [← hr]
      rfl
    · rw [h]
      rfl
  cases cause with
  | expected | expectedIdentifier | expectedExpression | expectedFunction | extraToken => rfl
  | _ =>
    simp [message, Text.marked, ascii] at hh
    exact absurd hh (by decide)

/-- No two tokens of a text stand at the same place. -/
theorem Token.Places.unique {src : Bytes} {toks : List Token} (h : Places src toks) {i j : Nat}
    {t u : Token} (hi : toks[i]? = some t) (hj : toks[j]? = some u) (hp : t.pos = u.pos) :
    i = j := by
  obtain ⟨hit, rfl⟩ := List.getElem?_eq_some_iff.mp hi
  obtain ⟨hjt, rfl⟩ := List.getElem?_eq_some_iff.mp hj
  have hinc := List.pairwise_iff_getElem.mp h.increasing
  rcases Nat.lt_trichotomy i j with hlt | heq | hlt
  · exact absurd (hinc i j hit hjt hlt) (by omega)
  · exact heq
  · exact absurd (hinc j i hjt hit hlt) (by omega)

namespace Derivation
open Grammar

/-- The token list of a program, with its end mark. -/
def Derivable (toks : List Token) : Prop :=
  ∃ occ, Derives (.rule .topLevel) toks occ ∨ Derives (.rule .functions) toks occ

/-- The token list begins that of some program. -/
def Viable (toks : List Token) : Prop := ∃ more, Derivable (toks ++ more)

theorem derivable_iff {toks : List Token} :
    Derivable toks ↔ ∃ r occ, (r = .topLevel ∨ r = .functions) ∧ Derives (.rule r) toks occ := by
  constructor
  · rintro ⟨occ, h | h⟩
    · exact ⟨_, occ, .inl rfl, h⟩
    · exact ⟨_, occ, .inr rfl, h⟩
  · rintro ⟨r, occ, rfl | rfl, h⟩
    · exact ⟨occ, .inl h⟩
    · exact ⟨occ, .inr h⟩

private theorem startRule_cases (toks : List Token) :
    startRule toks = .topLevel ∨ startRule toks = .functions := by
  rw [startRule]
  split
  · exact .inl rfl
  · exact .inr rfl

/-- What a walk has passed before it is stuck begins a program. -/
theorem viable_of_stuck {w u : List Token} (h : Stuck (.rule (startRule (w ++ u))) (w ++ u) u) :
    Viable w := by
  obtain ⟨w', z, o, hw, hd⟩ := h.viable
  rw [← (List.append_inj' hw rfl).1] at hd
  exact ⟨z, derivable_iff.mpr ⟨_, o, startRule_cases _, hd⟩⟩

/-- No program goes on with the token where a walk is stuck, whatever follows it. -/
theorem not_viable_of_stuck {w u : List Token} {t : Token}
    (h : Stuck (.rule (startRule (w ++ t :: u))) (w ++ t :: u) (t :: u)) : ¬ Viable (w ++ [t]) := by
  rintro ⟨z, hz⟩
  rw [List.append_assoc, List.singleton_append] at hz
  obtain ⟨r, o, hr, hd⟩ := derivable_iff.mp hz
  -- The first token is the same, and so is the rule.
  have hstart : startRule (w ++ t :: z) = startRule (w ++ t :: u) := by
    cases w <;> rfl
  rw [← hstart, ← rule_of_derives hr hd] at h
  have hw : List.Forall₂ Alike w w := List.forall₂_same.mpr fun t _ => .refl t
  have hs : Stuck (.rule r) (w ++ t :: z) (t :: z) :=
    h.beside (fun _ => rfl) (beside_of_alike _ _ hw)
  exact (walks_of_derives_program hr hd).not_stuck hs

private theorem tokens_initial {src : Bytes} {toks : List Token} (h : Token.scan src = .ok toks)
    (req : Requirements) : (initial toks req).tokens = toks := by
  rw [State.tokens, initial, endOffset_of_scan h]
  exact (Token.places_of_scan h).ends.symm

/-- A syntax error is at the first token that no program can have there: the tokens before it begin
some program, and with it they begin none. -/
theorem viable_take_of_syntaxError {src : Bytes} {toks : List Token} {req : Requirements}
    {halt : Halt} (hs : Token.scan src = .ok toks) (hp : parse toks req = .error halt)
    (hm : ascii "expected " <+: halt.error.cause.message ∨
      halt.error.cause.message = ascii "extra token") :
    ∃ k t, toks[k]? = some t ∧ t.pos = halt.error.offset ∧
      (∀ j u, toks[j]? = some u → u.pos = halt.error.offset → j = k) ∧
      Viable (toks.take k) ∧ ¬ Viable (toks.take (k + 1)) := by
  obtain ⟨t, u, hstuck, hpos⟩ := blocked_parse hp (Cause.isSyntax_of_message hm)
  rw [tokens_initial hs] at hstuck
  obtain ⟨w, rfl⟩ := hstuck.suffix
  have ht : (w ++ t :: u)[w.length]? = some t := by simp
  refine ⟨w.length, t, ht, hpos, fun j t' hj hpos' => ?_, ?_, ?_⟩
  · exact (Token.places_of_scan hs).unique hj ht (hpos'.trans hpos.symm)
  · rw [List.take_left]
    exact viable_of_stuck hstuck
  · rw [List.take_length_add_append]
    exact not_viable_of_stuck hstuck

def brokenOff : List Token :=
  [⟨.punct, 0, ascii "\x7b", 0⟩, ⟨.ident, 1, ascii "x", 0⟩, ⟨.punct, 2, ascii "=", 0⟩,
    ⟨.punct, 3, ascii ";", 0⟩, .eof 4]

theorem viable_take_of_brokenOff :
    Token.scan (ascii "\x7bx=;") = .ok brokenOff ∧
      parse brokenOff {} = .error ⟨⟨.expectedExpression, 3⟩, {}⟩ ∧
      ∃ k t, brokenOff[k]? = some t ∧ t.pos = 3 ∧
        (∀ j u, brokenOff[j]? = some u → u.pos = 3 → j = k) ∧
        Viable (brokenOff.take k) ∧ ¬ Viable (brokenOff.take (k + 1)) := by
  have hs : Token.scan (ascii "\x7bx=;") = .ok brokenOff := by decide +kernel
  have hp : parse brokenOff {} = .error ⟨⟨.expectedExpression, 3⟩, {}⟩ := parse_of_walk rfl
  exact ⟨hs, hp, viable_take_of_syntaxError hs hp (.inl ⟨ascii "an expression", rfl⟩)⟩

end Derivation
end StackC
