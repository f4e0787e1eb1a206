import SchemaGen.Proofs.Schema.Equality
import SchemaGen.Proofs.Schema.Table

namespace SchemaGen.Constant

/-- A map that is filled with its own pairs stays as it is. -/
theorem ofEntries_pairs (entries : List (Constant × Constant)) :
    ofEntries (Table.ofEntriesBy sameKey entries) = ofEntries entries :=
  congrArg map (Table.ofEntriesBy_of_pairwise (Table.pairwise_keys_ofEntriesBy entries))

/-- A map that is filled on has the pairs that it has if it is filled with all entries at once. -/
theorem ofEntries_append (entries more : List (Constant × Constant)) :
    ofEntries (entries ++ more) = ofEntries (Table.ofEntriesBy sameKey entries ++ more) :=
  congrArg map (Table.ofEntriesBy_append entries more).symm

/-- The pairs of a filled map have keys that differ, and one of them is the same as the key of each
entry. They stand in the order of the first entries of their classes. Each has the key of the first
entry of its class, as it is spelled there, and the value of the last. So a map is filled with its
own pairs alone as it is, and with entries behind them as if they were those it was filled with. -/
theorem ofEntries_fills (entries : List (Constant × Constant)) :
    ∃ pairs, ofEntries entries = map pairs ∧
      (pairs.Pairwise fun p q => sameKey p.1 q.1 = false) ∧
      (∀ e ∈ entries, ∃ p ∈ pairs, sameKey p.1 e.1 = true) ∧
      (pairs.Pairwise fun p q =>
        entries.findIdx (sameKey p.1 ·.1) < entries.findIdx (sameKey q.1 ·.1)) ∧
      (∀ p ∈ pairs,
        (entries.find? (sameKey p.1 ·.1)).map (·.1) = some p.1 ∧
        (entries.reverse.find? (sameKey p.1 ·.1)).map (·.2) = some p.2) ∧
      ofEntries pairs = map pairs ∧
      ∀ more, ofEntries (entries ++ more) = ofEntries (pairs ++ more) := by
  have hs := sameKey_equivalence
  refine ⟨Table.ofEntriesBy sameKey entries, rfl, ?_, fun e he => ?_,
    Table.pairwise_findIdx_ofEntriesBy hs entries, fun p hp => ⟨?_, ?_⟩, ofEntries_pairs entries,
    ofEntries_append entries⟩
  · exact List.pairwise_map.mp (Table.pairwise_keys_ofEntriesBy entries)
  · exact Table.exists_ofEntriesBy_same hs he
  · exact Table.find?_key_of_mem hs hp
  · exact Table.find?_value_of_mem hs hp

/-- The two zeros are one key, which keeps its first spelling and its place. -/
example :
    ofEntries [(number (.neg .zero), bool true), (null, null), (number .zero, bool false)] =
      map [(number (.neg .zero), bool false), (null, null)] := rfl

end SchemaGen.Constant
