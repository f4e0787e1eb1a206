import Mathlib.Data.List.Perm.Subperm
import SchemaGen.Proofs.Schema.Firsts

namespace SchemaGen.Table

variable {κ ν : Type}

section By

variable {same : κ → κ → Bool}

theorem mem_insertBy {key : κ} {value : ν} {table : List (κ × ν)} {e : κ × ν}
    (h : e ∈ insertBy same key value table) :
    (e.1 = key ∨ ∃ f ∈ table, e.1 = f.1) ∧ (e.2 = value ∨ ∃ f ∈ table, e.2 = f.2) := by
  induction table with
  | nil =>
    obtain rfl := List.mem_singleton.mp h
    exact ⟨.inl rfl, .inl rfl⟩
  | cons f table ih =>
    rw [insertBy] at h
    split at h
    · rcases List.mem_cons.mp h with rfl | h
      · exact ⟨.inr ⟨f, List.mem_cons_self, rfl⟩, .inl rfl⟩
      · have he := List.mem_cons_of_mem f h
        exact ⟨.inr ⟨e, he, rfl⟩, .inr ⟨e, he, rfl⟩⟩
    · rcases List.mem_cons.mp h with rfl | h
      · exact ⟨.inr ⟨f, List.mem_cons_self, rfl⟩, .inr ⟨f, List.mem_cons_self, rfl⟩⟩
      · have hmem {P : κ × ν → Prop} : (∃ g ∈ table, P g) → ∃ g ∈ f :: table, P g :=
          fun ⟨g, hg, hP⟩ => ⟨g, List.mem_cons_of_mem f hg, hP⟩
        exact ⟨(ih h).1.imp_right hmem, (ih h).2.imp_right hmem⟩

theorem ofEntriesBy_concat (entries : List (κ × ν)) (e : κ × ν) :
    ofEntriesBy same (entries ++ [e]) = insertBy same e.1 e.2 (ofEntriesBy same entries) := by
  rw [ofEntriesBy, List.foldl_append, ← ofEntriesBy, List.foldl_cons, List.foldl_nil]

/-- Every key and every value of a table is that of one of its entries. -/
theorem mem_ofEntriesBy {entries : List (κ × ν)} {e : κ × ν}
    (h : e ∈ ofEntriesBy same entries) :
    (∃ f ∈ entries, e.1 = f.1) ∧ ∃ f ∈ entries, e.2 = f.2 := by
  induction entries using List.reverseRecOn generalizing e with
  | nil => exact absurd h List.not_mem_nil
  | append_singleton entries g ih =>
    rw [ofEntriesBy_concat] at h
    have hlast : g ∈ entries ++ [g] := List.mem_append_right entries List.mem_cons_self
    obtain ⟨hkey, hvalue⟩ := mem_insertBy h
    constructor
    · rcases hkey with hkey | ⟨f, hf, hkey⟩
      · exact ⟨g, hlast, hkey⟩
      · obtain ⟨d, hd, hkey'⟩ := (ih hf).1
        exact ⟨d, List.mem_append_left [g] hd, hkey.trans hkey'⟩
    · rcases hvalue with hvalue | ⟨f, hf, hvalue⟩
      · exact ⟨g, hlast, hvalue⟩
      · obtain ⟨d, hd, hvalue'⟩ := (ih hf).2
        exact ⟨d, List.mem_append_left [g] hd, hvalue.trans hvalue'⟩

theorem insertBy_of_forall {key : κ} {table : List (κ × ν)}
    (h : ∀ e ∈ table, same e.1 key = false) (value : ν) :
    insertBy same key value table = table ++ [(key, value)] := by
  induction table with
  | nil => rfl
  | cons e table ih =>
    rw [List.forall_mem_cons] at h
    rw [insertBy, h.1, ih h.2]
    rfl

theorem keys_insertBy (key : κ) (value : ν) (table : List (κ × ν)) :
    keys (insertBy same key value table) =
      if (keys table).any (same · key) then keys table else keys table ++ [key] := by
  induction table with
  | nil => rfl
  | cons e table ih =>
    rw [insertBy, keys, keys, List.map_cons, List.any_cons]
    cases h : same e.1 key with
    | true => rfl
    | false =>
      rw [Bool.false_or, if_neg Bool.false_ne_true, List.map_cons, ← keys, ← keys, ih]
      split <;> rfl

/-- The keys of a filled table are the first of those of its entries. -/
theorem keys_ofEntriesBy (entries : List (κ × ν)) :
    keys (ofEntriesBy same entries) = firstsBy same (keys entries) := by
  induction entries using List.reverseRecOn with
  | nil => rfl
  | append_singleton entries e ih =>
    rw [ofEntriesBy_concat, keys_insertBy, ih, keys, keys, List.map_append, List.map_singleton,
      firstsBy_concat]

/-- No two keys of a filled table are the same. -/
theorem pairwise_keys_ofEntriesBy (entries : List (κ × ν)) :
    (keys (ofEntriesBy same entries)).Pairwise fun a b => same a b = false := by
  rw [keys_ofEntriesBy]
  exact pairwise_firstsBy _

/-- A table whose keys differ is filled with its own entries. -/
theorem ofEntriesBy_of_pairwise {entries : List (κ × ν)}
    (h : (keys entries).Pairwise fun a b => same a b = false) :
    ofEntriesBy same entries = entries := by
  induction entries using List.reverseRecOn with
  | nil => rfl
  | append_singleton entries e ih =>
    rw [keys, List.map_append, List.map_singleton] at h
    obtain ⟨hentries, -, hlast⟩ := List.pairwise_append.mp h
    rw [ofEntriesBy_concat, ih hentries]
    exact insertBy_of_forall
      (fun f hf => hlast f.1 (List.mem_map_of_mem hf) e.1 List.mem_cons_self) e.2

/-- What is filled in before the rest may as well be a table. -/
theorem ofEntriesBy_append (entries more : List (κ × ν)) :
    ofEntriesBy same (ofEntriesBy same entries ++ more) = ofEntriesBy same (entries ++ more) := by
  have hagain : ofEntriesBy same (ofEntriesBy same entries) = ofEntriesBy same entries :=
    ofEntriesBy_of_pairwise (pairwise_keys_ofEntriesBy entries)
  unfold ofEntriesBy at hagain ⊢
  rw [List.foldl_append, List.foldl_append, hagain]

section Classes

variable (hs : Equivalence fun a b => same a b = true)
include hs

theorem find?_insertBy (key : κ) (value : ν) (table : List (κ × ν)) (other : κ) :
    ((insertBy same key value table).find? (same other ·.1)).map (·.2) =
      if same other key then some value else (table.find? (same other ·.1)).map (·.2) := by
  induction table with
  | nil =>
    rw [insertBy, List.find?_singleton, List.find?_nil]
    split <;> rfl
  | cons e table ih =>
    rw [insertBy]
    by_cases hkey : same e.1 key = true
    · have hother : same other e.1 = same other key :=
        Bool.eq_iff_iff.mpr ⟨fun h => hs.trans h hkey, fun h => hs.trans h (hs.symm hkey)⟩
      rw [if_pos hkey, List.find?_cons, List.find?_cons, hother]
      split <;> simp_all
    · rw [if_neg hkey, List.find?_cons, List.find?_cons]
      cases hother : same other e.1 with
      | true =>
        have hnot : ¬ same other key = true := fun h => hkey (hs.trans (hs.symm hother) h)
        rw [if_neg hnot]
      | false => exact ih

/-- The value that stays with a key is that of the last entry whose key is the same. -/
theorem find?_ofEntriesBy (entries : List (κ × ν)) (key : κ) :
    ((ofEntriesBy same entries).find? (same key ·.1)).map (·.2) =
      (entries.reverse.find? (same key ·.1)).map (·.2) := by
  induction entries using List.reverseRecOn with
  | nil => rfl
  | append_singleton entries e ih =>
    rw [ofEntriesBy_concat, find?_insertBy hs, ih, List.reverse_append, List.reverse_singleton,
      List.singleton_append, List.find?_cons]
    split <;> simp_all

/-- In a table whose keys differ a key leads to its own pair. -/
theorem find?_of_mem {table : List (κ × ν)}
    (h : (keys table).Pairwise fun a b => same a b = false) {p : κ × ν} (hp : p ∈ table) :
    table.find? (same p.1 ·.1) = some p := by
  induction table with
  | nil => exact absurd hp List.not_mem_nil
  | cons e table ih =>
    obtain ⟨he, hrest⟩ := List.pairwise_cons.mp h
    rw [List.find?_cons]
    rcases List.mem_cons.mp hp with rfl | hp
    · rw [hs.refl p.1]
    · have hne : same p.1 e.1 = false :=
        Bool.eq_false_iff.mpr fun hsame =>
          Bool.eq_false_iff.mp (he p.1 (List.mem_map_of_mem hp)) (hs.symm hsame)
      rw [hne]
      exact ih hrest hp

variable {entries : List (κ × ν)} {p : κ × ν}

theorem exists_ofEntriesBy_same {e : κ × ν} (he : e ∈ entries) :
    ∃ p ∈ ofEntriesBy same entries, same p.1 e.1 = true := by
  obtain ⟨k, hk, hsame⟩ := exists_firstsBy_same hs (List.mem_map_of_mem (f := (·.1)) he)
  rw [← keys, ← keys_ofEntriesBy] at hk
  obtain ⟨p, hp, rfl⟩ := List.mem_map.mp hk
  exact ⟨p, hp, hsame⟩

/-- A pair has the key of the first entry of its class. -/
theorem find?_key_of_mem (hp : p ∈ ofEntriesBy same entries) :
    (entries.find? (same p.1 ·.1)).map (·.1) = some p.1 := by
  have hkey : p.1 ∈ firstsBy same (keys entries) := by
    rw [← keys_ofEntriesBy]
    exact List.mem_map_of_mem hp
  rw [← find?_of_mem_firstsBy hs hkey, keys, List.find?_map]
  rfl

/-- A pair has the value of the last entry of its class. -/
theorem find?_value_of_mem (hp : p ∈ ofEntriesBy same entries) :
    (entries.reverse.find? (same p.1 ·.1)).map (·.2) = some p.2 := by
  rw [← find?_ofEntriesBy hs, find?_of_mem hs (pairwise_keys_ofEntriesBy entries) hp,
    Option.map_some]

/-- The pairs stand in the order of the first entries of their classes. -/
theorem pairwise_findIdx_ofEntriesBy (entries : List (κ × ν)) :
    (ofEntriesBy same entries).Pairwise fun p q =>
      entries.findIdx (same p.1 ·.1) < entries.findIdx (same q.1 ·.1) := by
  have hkeys : (keys (ofEntriesBy same entries)).Pairwise fun a b =>
      (keys entries).findIdx (same a) < (keys entries).findIdx (same b) := by
    rw [keys_ofEntriesBy]
    exact pairwise_findIdx_firstsBy hs
  refine (List.pairwise_map.mp hkeys).imp fun {p q} hlt => ?_
  rwa [keys, List.findIdx_map, List.findIdx_map] at hlt

end Classes

end By

variable [BEq κ]

theorem insert_map {μ : Type} (f : ν → μ) (key : κ) (value : ν) (table : List (κ × ν)) :
    insert key (f value) (table.map fun e => (e.1, f e.2)) =
      (insert key value table).map fun e => (e.1, f e.2) := by
  induction table with
  | nil => rfl
  | cons e table ih =>
    rw [List.map_cons, insert, insertBy, insert, insertBy]
    split
    · rfl
    · exact congrArg ((e.1, f e.2) :: ·) ih

theorem ofEntries_concat (entries : List (κ × ν)) (e : κ × ν) :
    ofEntries (entries ++ [e]) = insert e.1 e.2 (ofEntries entries) :=
  ofEntriesBy_concat entries e

/-- Which entries stay does not depend on their values. -/
theorem ofEntries_map {μ : Type} (f : ν → μ) (entries : List (κ × ν)) :
    ofEntries (entries.map fun e => (e.1, f e.2)) =
      (ofEntries entries).map fun e => (e.1, f e.2) := by
  induction entries using List.reverseRecOn with
  | nil => rfl
  | append_singleton entries e ih =>
    rw [List.map_append, List.map_singleton, ofEntries_concat, ih, ofEntries_concat]
    exact insert_map f e.1 e.2 _

theorem lookup_eq_find? (table : List (κ × ν)) (key : κ) :
    table.lookup key = (table.find? (key == ·.1)).map (·.2) := by
  induction table with
  | nil => rfl
  | cons e table ih =>
    rw [List.lookup_cons, List.find?_cons, ih]
    split <;> rfl

variable [LawfulBEq κ]

theorem equivalence_beq : Equivalence fun a b : κ => (a == b) = true where
  refl := beq_self_eq_true
  symm := BEq.symm
  trans := BEq.trans

theorem insert_of_not_mem {key : κ} {value : ν} {table : List (κ × ν)} (h : key ∉ keys table) :
    insert key value table = table ++ [(key, value)] := by
  refine insertBy_of_forall (fun e he => beq_false_of_ne ?_) value
  rintro rfl
  exact h (List.mem_map_of_mem he)

theorem insert_of_mem {key : κ} {value : ν} {table : List (κ × ν)} (h : key ∈ keys table) :
    keys (insert key value table) = keys table := by
  rw [insert, keys_insertBy, if_pos]
  exact List.any_eq_true.mpr ⟨key, h, beq_self_eq_true key⟩

theorem nodup_keys_insert {key : κ} {value : ν} {table : List (κ × ν)} (h : (keys table).Nodup) :
    (keys (insert key value table)).Nodup := by
  by_cases hm : key ∈ keys table
  · rwa [insert_of_mem hm]
  · rw [insert_of_not_mem hm]
    have hk : keys (table ++ [(key, value)]) = keys table ++ [key] := by simp [keys]
    rw [hk]
    refine List.nodup_append.mpr ⟨h, by simp, fun a ha b hb => ?_⟩
    rintro rfl
    rw [List.mem_singleton] at hb
    exact hm (hb ▸ ha)

theorem mem_insert {key : κ} {value : ν} {table : List (κ × ν)} {e : κ × ν}
    (h : e ∈ insert key value table) : e = (key, value) ∨ e ∈ table := by
  induction table with
  | nil => exact .inl (List.mem_singleton.mp h)
  | cons f table ih =>
    rw [insert, insertBy] at h
    split at h
    · next hk =>
      rw [beq_iff_eq] at hk
      rcases List.mem_cons.mp h with rfl | h
      · exact .inl (by rw [hk])
      · exact .inr (List.mem_cons_of_mem f h)
    · rcases List.mem_cons.mp h with rfl | h
      · exact .inr List.mem_cons_self
      · exact (ih h).imp_right (List.mem_cons_of_mem f)

theorem filterMap_insert {β : Type} {f : κ × ν → Option β} {key : κ} {value : ν}
    {table : List (κ × ν)} (hnew : f (key, value) = none)
    (hold : ∀ v, (key, v) ∈ table → f (key, v) = none) :
    (insert key value table).filterMap f = table.filterMap f := by
  induction table with
  | nil => exact List.filterMap_cons_none hnew
  | cons e table ih =>
    obtain ⟨k, v⟩ := e
    rw [insert, insertBy]
    split
    · next hk =>
      obtain rfl := beq_iff_eq.mp hk
      rw [List.filterMap_cons_none hnew, List.filterMap_cons_none (hold v List.mem_cons_self)]
    · have hrest := ih fun v hv => hold v (List.mem_cons_of_mem _ hv)
      rw [List.filterMap_cons, List.filterMap_cons, ← hrest]
      rfl

/-- A table without repeated keys is filled with its own entries. -/
theorem ofEntries_of_nodup {entries : List (κ × ν)} (h : (keys entries).Nodup) :
    ofEntries entries = entries :=
  ofEntriesBy_of_pairwise (h.imp beq_false_of_ne)

theorem lookup_insert [DecidableEq κ] (key other : κ)
    (value : ν) (table : List (κ × ν)) :
    (insert key value table).lookup other =
      if other = key then some value else table.lookup other := by
  rw [lookup_eq_find?, lookup_eq_find?, insert, find?_insertBy equivalence_beq]
  simp only [beq_iff_eq]

/-- Setting a value gives the one that was found under its key. -/
theorem exchange_eq (key : κ) (value : ν) (table : List (κ × ν)) :
    exchange key value table = (table.lookup key, insert key value table) := by
  induction table with
  | nil => rfl
  | cons e table ih =>
    obtain ⟨k, v⟩ := e
    unfold exchange insert at ih ⊢
    rw [exchangeBy, insertBy, List.lookup_cons, BEq.comm (a := key)]
    cases k == key with
    | true => rfl
    | false =>
      rw [ih]
      rfl

/-- An entry of a filled table is one of those that it was filled with. -/
theorem mem_ofEntries {entries : List (κ × ν)} {e : κ × ν} (h : e ∈ ofEntries entries) :
    e ∈ entries := by
  induction entries using List.reverseRecOn with
  | nil => exact absurd h List.not_mem_nil
  | append_singleton entries f ih =>
    rw [ofEntries_concat] at h
    rcases mem_insert h with rfl | h
    · exact List.mem_append_right entries List.mem_cons_self
    · exact List.mem_append_left [f] (ih h)

theorem mem_keys_ofEntries {entries : List (κ × ν)} {key : κ} :
    key ∈ keys (ofEntries entries) ↔ key ∈ keys entries := by
  constructor
  · intro h
    obtain ⟨e, he, rfl⟩ := List.mem_map.mp h
    exact List.mem_map_of_mem (mem_ofEntries he)
  · intro h
    obtain ⟨e, he, rfl⟩ := List.mem_map.mp h
    obtain ⟨p, hp, hsame⟩ := exists_ofEntriesBy_same equivalence_beq he
    exact beq_iff_eq.mp hsame ▸ List.mem_map_of_mem hp

/-- Only a new key makes a table longer. -/
theorem length_insert [DecidableEq κ] (key : κ) (value : ν) (table : List (κ × ν)) :
    (insert key value table).length =
      if key ∈ keys table then table.length else table.length + 1 := by
  split
  · next h =>
    have hkeys : keys (insert key value table) = keys table := insert_of_mem h
    simpa only [keys, List.length_map] using congrArg List.length hkeys
  · next h => rw [insert_of_not_mem h, List.length_append, List.length_singleton]

theorem nodup_keys_ofEntries (entries : List (κ × ν)) : (keys (ofEntries entries)).Nodup :=
  (pairwise_keys_ofEntriesBy entries).imp ne_of_beq_false

theorem lookup_of_mem {table : List (κ × ν)} (h : (keys table).Nodup) {e : κ × ν}
    (he : e ∈ table) : table.lookup e.1 = some e.2 := by
  rw [lookup_eq_find?, find?_of_mem equivalence_beq (h.imp beq_false_of_ne) he, Option.map_some]

theorem mem_of_lookup {table : List (κ × ν)} {key : κ} {value : ν}
    (h : table.lookup key = some value) : (key, value) ∈ table := by
  obtain ⟨front, back, rfl, -⟩ := List.lookup_eq_some_iff.mp h
  exact List.mem_append_right front List.mem_cons_self

/-- Of two tables of one size each holds the keys of the other if one does. -/
theorem found_symm {μ : Type} {R : ν → μ → Prop} {table : List (κ × ν)} {other : List (κ × μ)}
    (hk : (keys table).Nodup) (hk' : (keys other).Nodup) (hlength : table.length = other.length)
    (h : ∀ e ∈ table, ∃ v, other.lookup e.1 = some v ∧ R e.2 v) :
    ∀ e ∈ other, ∃ v, table.lookup e.1 = some v ∧ R v e.2 := by
  have hsub : keys table ⊆ keys other := by
    intro key hkey
    obtain ⟨e, he, rfl⟩ := List.mem_map.mp hkey
    obtain ⟨v, hv, -⟩ := h e he
    exact List.mem_map_of_mem (mem_of_lookup hv)
  have hperm : (keys table).Perm (keys other) :=
    (hk.subperm hsub).perm_of_length_le (by simp [keys, hlength])
  intro e he
  obtain ⟨f, hf, hkey⟩ := List.mem_map.mp (hperm.mem_iff.mpr (List.mem_map_of_mem he))
  obtain ⟨v, hv, hR⟩ := h f hf
  rw [hkey, lookup_of_mem hk' he] at hv
  obtain rfl := Option.some.inj hv
  exact ⟨f.2, hkey ▸ lookup_of_mem hk hf, hR⟩

/-- The last of the entries with a key gives the value that stays. -/
theorem lookup_ofEntries (entries : List (κ × ν)) (key : κ) :
    (ofEntries entries).lookup key = entries.reverse.lookup key := by
  rw [lookup_eq_find?, lookup_eq_find?, ofEntries, find?_ofEntriesBy equivalence_beq]

end SchemaGen.Table
