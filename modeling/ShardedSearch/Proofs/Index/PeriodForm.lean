import ShardedSearch.Proofs.Index.PeriodSpelling

/-! # Reading period entries back

An entry is read back from its byte form, if the parts of it have lengths that a varint can
tell.
-/

namespace ShardedSearch.Index

open Wire

def SpelledTerm.ofPair (t : String × Bitmap) : SpelledTerm where
  termLength := Varint.encode (utf8 t.1).length
  term := t.1
  bitmapLength := Varint.encode t.2.toBytes.length
  bitmap := t.2.toBytes

@[simp]
theorem SpelledTerm.pair_ofPair (t : String × Bitmap) : (ofPair t).pair = t :=
  Prod.ext rfl (Bitmap.ofBytes_toBytes t.2)

def SpelledEntry.ofEntry (e : PeriodEntry) : SpelledEntry where
  keyLength := Varint.encode (utf8 e.key).length
  key := e.key
  count := Varint.encode e.terms.size
  terms := e.terms.toList.map SpelledTerm.ofPair

namespace PeriodEntry

variable {e : PeriodEntry}

def IsShort (t : String × Bitmap) : Prop :=
  t.1.utf8ByteSize < 2 ^ 64 ∧ t.2.toBytes.length < 2 ^ 64

/-- Whether a varint can tell the lengths of all parts of an entry. -/
structure HasForm (e : PeriodEntry) : Prop where
  key : e.key.utf8ByteSize < 2 ^ 64
  size : e.terms.size < 2 ^ 64
  terms : ∀ t ∈ e.terms.toList, IsShort t

theorem bytes_ofEntry (e : PeriodEntry) : (SpelledEntry.ofEntry e).bytes = encode e := by
  rw [SpelledEntry.bytes, SpelledEntry.ofEntry, List.flatMap_map]
  exact (List.append_assoc ..).symm

theorem entry_ofEntry (e : PeriodEntry) : (SpelledEntry.ofEntry e).entry = e := by
  rw [SpelledEntry.entry, SpelledEntry.ofEntry, List.map_map]
  simp only [Function.comp_def, SpelledTerm.pair_ofPair, List.map_id', SortedMap.ofList_toList]

theorem HasForm.isValid_ofEntry (h : e.HasForm) : (SpelledEntry.ofEntry e).IsValid where
  keyLength := Varint.spells_encode h.key
  count := by
    rw [SpelledEntry.ofEntry, List.length_map]
    exact Varint.spells_encode h.size
  terms := by
    intro t ht
    obtain ⟨u, hu, rfl⟩ := List.mem_map.mp ht
    obtain ⟨hterm, hbitmap⟩ := h.terms u hu
    exact ⟨Varint.spells_encode hterm, Varint.spells_encode hbitmap⟩
  distinct := by
    rw [SpelledEntry.ofEntry, List.map_map]
    exact (List.pairwise_map.mpr e.terms.ascending).imp KeyOrder.ne_of_lt

theorem decode_encode_entry (h : e.HasForm) (rest : Bytes) :
    decode (encode e ++ rest) = .ok (e, rest) :=
  takes_entry.read_append ⟨_, h.isValid_ofEntry, bytes_ofEntry e, entry_ofEntry e⟩ rest

/-- An entry is read back from its byte form. -/
theorem ofBytes_encode (h : e.HasForm) : ofBytes (encode e) = .ok e :=
  ofBytes_eq_ok_iff.mpr ⟨_, h.isValid_ofEntry, bytes_ofEntry e, entry_ofEntry e⟩

end PeriodEntry

end ShardedSearch.Index
