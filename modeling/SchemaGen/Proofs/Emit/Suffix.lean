import SchemaGen.Proofs.Emit.Exports
import SchemaGen.Proofs.Text.LowerCase

namespace SchemaGen

open Text

namespace ModuleStyle

variable {style : ModuleStyle}

theorem hasSuffix_iff (style : ModuleStyle) (name : String) :
    style.hasSuffix name = true ↔ (lower style.suffix).toList <:+ (lower name).toList := by
  rw [hasSuffix, endsWith, List.isSuffixOf_iff_suffix]

/-- Whether a name has case at its end that turns the sigma in front of the suffix into a final one,
and lacks the suffix. -/
structure BendsSuffix (style : ModuleStyle) (name : String) : Prop where
  lacks : style.hasSuffix name = false
  opens : opensWithSigma style.suffix.toList = true
  cased : casedAhead name.toList.reverse = true

/-- A suffix without a capital sigma is bent by no name. -/
theorem not_bendsSuffix (h : 'Σ' ∉ style.suffix.toList) (name : String) :
    ¬ style.BendsSuffix name := by
  intro hbends
  have hopens := hbends.opens
  rw [opensWithSigma_of_not_mem h] at hopens
  cases hopens

/-- A name with the suffix behind it has the suffix, unless case in front bends it. -/
theorem hasSuffix_append_iff (style : ModuleStyle) (name : String) :
    style.hasSuffix (name ++ style.suffix) = true ↔
      ¬ (opensWithSigma style.suffix.toList = true ∧ casedAhead name.toList.reverse = true) := by
  rw [hasSuffix_iff, lower, lower, String.toList_ofList, String.toList_ofList, String.toList_append,
    lowerFrom_suffix_iff]

theorem hasSuffix_exportName_iff (style : ModuleStyle) (name : String) :
    style.hasSuffix (style.exportName name) = true ↔ ¬ style.BendsSuffix name := by
  rw [exportName_eq]
  cases hname : style.hasSuffix name with
  | true =>
    rw [if_pos rfl, hname]
    refine iff_of_true rfl fun h => ?_
    cases hname.symm.trans h.lacks
  | false =>
    rw [if_neg (by decide), hasSuffix_append_iff]
    exact not_congr ⟨fun h => ⟨hname, h.1, h.2⟩, fun h => ⟨h.opens, h.cased⟩⟩

theorem exportName_or (style : ModuleStyle) (name : String) :
    style.exportName name = name ∨ style.exportName name = name ++ style.suffix := by
  rw [exportName_eq]
  split
  · exact .inl rfl
  · exact .inr rfl

/-- Two names that meet differ by the suffix. -/
theorem eq_append_of_exportName_eq {name other : String} (hne : other ≠ name)
    (h : style.exportName other = style.exportName name) :
    other = name ++ style.suffix ∨ name = other ++ style.suffix := by
  rcases style.exportName_or other with hother | hother <;>
    rcases style.exportName_or name with hname | hname <;> rw [hother, hname] at h
  · exact absurd h hne
  · exact .inl h
  · exact .inr h.symm
  · exact absurd ((String.append_left_inj style.suffix).mp h) hne

end ModuleStyle

/-- A name is exported as it is or with the suffix behind it, and two names meet only if one of them
is the other with the suffix. What is exported ends in the suffix in lower case, and is exported
under its own name, exactly if the suffix does not open with a sigma that the name turns into a
final one. -/
theorem exportName_once_iff (style : ModuleStyle) (name : String) :
    (style.exportName name = name ∨ style.exportName name = name ++ style.suffix) ∧
    (∀ other, other ≠ name → style.exportName other = style.exportName name →
      other = name ++ style.suffix ∨ name = other ++ style.suffix) ∧
    ((lower style.suffix).toList <:+ (lower (style.exportName name)).toList ↔
      ¬ style.BendsSuffix name) ∧
    (style.exportName (style.exportName name) = style.exportName name ↔
      ¬ style.BendsSuffix name) := by
  refine ⟨style.exportName_or name, fun other => ModuleStyle.eq_append_of_exportName_eq, ?_, ?_⟩
  · rw [← ModuleStyle.hasSuffix_iff, ModuleStyle.hasSuffix_exportName_iff]
  · rw [eq_comm, ModuleStyle.eq_exportName_iff, ModuleStyle.hasSuffix_exportName_iff]

/-- Names that meet, and one that bends the suffix of its module. -/
theorem exportName_once_sigma :
    ModuleStyle.exportName {} (ModuleStyle.exportName {} "Pack") =
      ModuleStyle.exportName {} "Pack" ∧
    ("PackSchema" = "Pack" ++ "Schema" ∨ "Pack" = "PackSchema" ++ "Schema") ∧
    ModuleStyle.exportName { suffix := "ΣX" } (ModuleStyle.exportName { suffix := "ΣX" } "A") =
      ModuleStyle.exportName { suffix := "ΣX" } "A" := by
  obtain ⟨-, hmeet, -, honce⟩ := exportName_once_iff {} "Pack"
  obtain ⟨-, -, -, hsigma⟩ := exportName_once_iff { suffix := "ΣX" } "A"
  have hplain : ¬ ModuleStyle.BendsSuffix {} "Pack" :=
    ModuleStyle.not_bendsSuffix (by decide) "Pack"
  refine ⟨honce.mpr hplain, hmeet "PackSchema" (by decide) (by decide +kernel),
    hsigma.mpr fun h => ?_⟩
  exact absurd h.opens (by decide +kernel)

/-- A sigma alone is final behind a letter, so the suffix is not found there and is taken again. -/
theorem exportName_sigma_twice :
    ModuleStyle.exportName { suffix := "Σ" } "A" = "AΣ" ∧
    ModuleStyle.exportName { suffix := "Σ" } "AΣ" = "AΣΣ" ∧
    ¬ (lower "Σ").toList <:+ (lower "AΣ").toList := by
  decide +kernel

end SchemaGen
