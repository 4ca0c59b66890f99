import Mathlib.Data.List.Basic

/-!
# Two parties and what they say to each other

Each party hears what the other says, in order, and answers what it hears. Between
them the order of reading is free, yet each history is a beginning of what the
other allows, so it does not matter which party reads first.
-/

namespace Dialogue

variable {S T F : Type}

/-- What a party has heard, what it has said, and its state after that. -/
abbrev Part (S F : Type) := List F → List F → S → Prop

/-- Each party has heard what the other has said, but for what is still on its way; `turns` counts what was heard. -/
def Coupled (P : Part S F) (Q : Part T F) (turns : Nat) (left : S) (right : T) (toLeft toRight : List F) : Prop :=
  ∃ heard said heard' said', P heard said left ∧ Q heard' said' right ∧ said' = heard ++ toLeft ∧ said = heard' ++ toRight ∧
    turns = heard.length + heard'.length

variable {P : Part S F} {Q : Part T F} {turns : Nat} {left : S} {right : T} {toLeft toRight : List F}

theorem Coupled.symm (h : Coupled P Q turns left right toLeft toRight) : Coupled Q P turns right left toRight toLeft := by
  obtain ⟨heard, said, heard', said', hleft, hright, hin, hout, hturns⟩ := h
  exact ⟨heard', said', heard, said, hright, hleft, hout, hin, hturns.trans (Nat.add_comm _ _)⟩

/-- The left party hears the next frame. What it does then is known from what both have heard and said. -/
theorem Coupled.hear {frame : F} {R : S → List F → Prop} (h : Coupled P Q turns left right (frame :: toLeft) toRight)
    (hear : ∀ {heard said heard' said'}, P heard said left → Q heard' said' right → heard' <+: said →
      said' = heard ++ frame :: toLeft → ∃ next out, R next out ∧ P (heard ++ [frame]) (said ++ out) next) :
    ∃ next out, R next out ∧ Coupled P Q (turns + 1) next right toLeft (toRight ++ out) := by
  obtain ⟨heard, said, heard', said', hleft, hright, hin, hout, rfl⟩ := h
  obtain ⟨next, out, hr, hnext⟩ := hear hleft hright (hout ▸ List.prefix_append _ _) hin
  refine ⟨next, out, hr, heard ++ [frame], said ++ out, heard', said', hnext, hright, ?_, ?_, ?_⟩
  · rw [hin, List.append_assoc, List.singleton_append]
  · rw [hout, List.append_assoc]
  · rw [List.length_append, List.length_singleton]
    omega

/-- When nothing is on its way, each has heard all that the other has said. -/
theorem Coupled.drained (h : Coupled P Q turns left right [] []) : ∃ said said', P said' said left ∧ Q said said' right := by
  obtain ⟨heard, said, heard', said', hleft, hright, hin, hout, -⟩ := h
  rw [List.append_nil] at hin hout
  subst hin hout
  exact ⟨said, said', hleft, hright⟩

/-- No more can be heard than is ever said. -/
theorem Coupled.turns_le (h : Coupled P Q turns left right toLeft toRight) {bound : Nat}
    (hbound : ∀ {heard said heard' said'}, P heard said left → Q heard' said' right → heard' <+: said → heard <+: said' →
      said.length + said'.length ≤ bound) : turns ≤ bound := by
  obtain ⟨heard, said, heard', said', hleft, hright, hin, hout, rfl⟩ := h
  have hsaid : heard' <+: said := hout ▸ List.prefix_append _ _
  have hsaid' : heard <+: said' := hin ▸ List.prefix_append _ _
  have hle := hbound hleft hright hsaid hsaid'
  have hle₁ := hsaid.length_le
  have hle₂ := hsaid'.length_le
  omega

end Dialogue
