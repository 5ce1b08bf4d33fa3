import ShardedSearch.Proofs.Index.PeriodForm

/-! # The canonical bytes of a period entry

Many bytes spell one entry. Those that it writes itself are never longer than others, and they
are told by their parts: the shortest varints, ascending terms, and bitmaps that do not end in
zero.
-/

namespace ShardedSearch.Index

open Wire

namespace SpelledTerm

variable {t : SpelledTerm} {ts : List SpelledTerm}

/-- Whether the varints are the shortest, and the bitmap has no byte that it could do
without. -/
structure IsCanonical (t : SpelledTerm) : Prop where
  termLength : Varint.IsShortest (utf8 t.term).length t.termLength
  bitmapLength : Varint.IsShortest t.bitmap.length t.bitmapLength
  bitmap : t.bitmap.getLast? ≠ some 0

theorem isCanonical_ofPair (t : String × Bitmap) : (ofPair t).IsCanonical where
  termLength := Varint.isShortest_encode _
  bitmapLength := Varint.isShortest_encode _
  bitmap := Bitmap.getLast?_toBytes_ne_zero t.2

theorem IsCanonical.ofPair_pair (hc : t.IsCanonical) (h : t.IsValid) : ofPair t.pair = t := by
  have hbitmap : (Bitmap.ofBytes t.bitmap).toBytes = t.bitmap := Bitmap.toBytes_ofBytes hc.bitmap
  have hterm := h.termLength.isShortest_iff.mp hc.termLength
  have hlength := h.bitmapLength.isShortest_iff.mp hc.bitmapLength
  cases t
  simp only [ofPair, pair, hbitmap, mk.injEq, true_and, and_true]
  exact ⟨hterm.symm, hlength.symm⟩

theorem length_toBytes_le (bs : Bytes) : (Bitmap.ofBytes bs).toBytes.length ≤ bs.length :=
  (Bitmap.fitsIn_ofBytes (Nat.le_refl _)).length_toBytes_le

theorem length_encodeTerm_le (h : t.IsValid) :
    (PeriodEntry.encodeTerm t.pair).length ≤ t.bytes.length := by
  have hbitmap := length_toBytes_le t.bitmap
  have hterm := h.termLength.groups.length_encode_le
  have hlength := Varint.length_encode_mono hbitmap
  have hlength' := h.bitmapLength.groups.length_encode_le
  simp only [PeriodEntry.encodeTerm, pair, bytes, Form.encode, encodeBlock, List.length_append]
  omega

theorem length_flatMap_encodeTerm_le (h : ∀ t ∈ ts, t.IsValid) :
    ((ts.map pair).flatMap PeriodEntry.encodeTerm).length ≤ (ts.flatMap bytes).length := by
  induction ts with
  | nil => exact Nat.le_refl 0
  | cons t ts ih =>
    obtain ⟨ht, hts⟩ := List.forall_mem_cons.mp h
    rw [List.map_cons, List.flatMap_cons, List.flatMap_cons, List.length_append,
      List.length_append]
    exact Nat.add_le_add (length_encodeTerm_le ht) (ih hts)

end SpelledTerm

namespace SpelledEntry

variable {p : SpelledEntry}

/-- Whether all varints are the shortest, the terms ascend strictly and no bitmap ends in
zero. -/
structure IsCanonical (p : SpelledEntry) : Prop where
  keyLength : Varint.IsShortest (utf8 p.key).length p.keyLength
  count : Varint.IsShortest p.terms.length p.count
  terms : ∀ t ∈ p.terms, t.IsCanonical
  ascending : (p.terms.map (·.term)).Pairwise (· < ·)

theorem IsValid.toList_entry_perm (h : p.IsValid) :
    p.entry.terms.toList.Perm (p.terms.map SpelledTerm.pair) := by
  refine SortedMap.toList_ofList_perm ?_
  rw [List.map_map]
  exact h.distinct

theorem IsValid.size_entry (h : p.IsValid) : p.entry.terms.size = p.terms.length := by
  rw [SortedMap.size, h.toList_entry_perm.length_eq, List.length_map]

theorem IsValid.hasForm_entry (h : p.IsValid) : p.entry.HasForm where
  key := h.keyLength.lt
  size := h.size_entry ▸ h.count.lt
  terms := by
    intro u hu
    obtain ⟨t, ht, rfl⟩ := List.mem_map.mp (h.toList_entry_perm.mem_iff.mp hu)
    have hlen := SpelledTerm.length_toBytes_le t.bitmap
    exact ⟨(h.terms t ht).termLength.lt, Nat.lt_of_le_of_lt hlen (h.terms t ht).bitmapLength.lt⟩

theorem IsValid.length_encode_entry_le (h : p.IsValid) :
    (encode p.entry).length ≤ p.bytes.length := by
  have hkey := h.keyLength.groups.length_encode_le
  have hcount := h.count.groups.length_encode_le
  have hterms := SpelledTerm.length_flatMap_encodeTerm_le h.terms
  have hperm := (h.toList_entry_perm.flatMap_right PeriodEntry.encodeTerm).length_eq
  have hsize := h.size_entry
  have hflat : (p.entry.terms.toList.flatMap PeriodEntry.encodeTerm).length ≤
      (p.terms.flatMap SpelledTerm.bytes).length := hperm ▸ hterms
  rw [← hsize] at hcount
  have hbytes : (encode p.entry).length = (Varint.encode (utf8 p.key).length).length +
      (utf8 p.key).length + (Varint.encode p.entry.terms.size).length +
      (p.entry.terms.toList.flatMap PeriodEntry.encodeTerm).length := by
    simp only [Form.encode, encodeBlock, List.length_append]
    rfl
  rw [hbytes, bytes]
  simp only [List.length_append]
  omega

theorem isCanonical_ofEntry (e : PeriodEntry) : (ofEntry e).IsCanonical where
  keyLength := Varint.isShortest_encode _
  count := by
    rw [ofEntry, List.length_map]
    exact Varint.isShortest_encode _
  terms := by
    intro t ht
    obtain ⟨u, -, rfl⟩ := List.mem_map.mp ht
    exact SpelledTerm.isCanonical_ofPair u
  ascending := by
    rw [ofEntry, List.map_map]
    exact List.pairwise_map.mpr e.terms.ascending

theorem IsCanonical.ofEntry_entry (hc : p.IsCanonical) (h : p.IsValid) : ofEntry p.entry = p := by
  have hlist : p.entry.terms.toList = p.terms.map SpelledTerm.pair := by
    refine SortedMap.toList_ofList (List.pairwise_map.mpr ?_)
    exact List.pairwise_map.mp hc.ascending
  have hterms : (ofEntry p.entry).terms = p.terms := by
    rw [ofEntry, hlist, List.map_map]
    refine (List.map_congr_left fun t ht => ?_).trans (List.map_id _)
    exact (hc.terms t ht).ofPair_pair (h.terms t ht)
  have hcount : (ofEntry p.entry).count = p.count := by
    rw [ofEntry, h.size_entry]
    exact (h.count.isShortest_iff.mp hc.count).symm
  have hkey : (ofEntry p.entry).keyLength = p.keyLength :=
    (h.keyLength.isShortest_iff.mp hc.keyLength).symm
  cases p
  exact mk.injEq .. ▸ ⟨hkey, rfl, hcount, hterms⟩

/-- An entry writes the bytes that it was read from just when they are canonical. -/
theorem IsValid.encode_entry_eq_iff (h : p.IsValid) : encode p.entry = p.bytes ↔ p.IsCanonical := by
  rw [← PeriodEntry.bytes_ofEntry]
  constructor
  · intro he
    rw [← eq_of_bytes_eq h.hasForm_entry.isValid_ofEntry h he]
    exact isCanonical_ofEntry p.entry
  · intro hc
    rw [hc.ofEntry_entry h]

end SpelledEntry

namespace PeriodEntry

/-- Bytes are an entry just when they can be cut into the parts of one. The entry then writes
bytes that are read as the same entry, that are no longer, and that are the same just when the
parts are canonical. -/
theorem ofBytes_spelled (bs : Bytes) :
    ((∃ e : PeriodEntry, ofBytes bs = .ok e) ↔ ∃ p : SpelledEntry, p.IsValid ∧ p.bytes = bs) ∧
    ∀ e : PeriodEntry, ofBytes bs = .ok e → ∀ p : SpelledEntry, p.IsValid → p.bytes = bs →
      p.entry = e ∧ ofBytes (encode e) = .ok e ∧ (encode e).length ≤ bs.length ∧
        (encode e = bs ↔ p.IsCanonical) := by
  constructor
  · constructor
    · rintro ⟨e, he⟩
      obtain ⟨p, hp, hbytes, -⟩ := ofBytes_eq_ok_iff.mp he
      exact ⟨p, hp, hbytes⟩
    · rintro ⟨p, hp, hbytes⟩
      exact ⟨p.entry, ofBytes_eq_ok_iff.mpr ⟨p, hp, hbytes, rfl⟩⟩
  · rintro e he p hp rfl
    obtain ⟨q, hq, hbytes, rfl⟩ := ofBytes_eq_ok_iff.mp he
    obtain rfl := SpelledEntry.eq_of_bytes_eq hq hp hbytes
    exact ⟨rfl, ofBytes_encode hq.hasForm_entry, hq.length_encode_entry_le,
      hq.encode_entry_eq_iff⟩

def paddedEntry : SpelledEntry := ⟨[129, 0], "d", [1], [⟨[1], "t", [2], [5, 0]⟩]⟩

theorem isValid_paddedEntry : paddedEntry.IsValid where
  keyLength := ⟨.more (b := 129) (by decide) (.last (b := 0) (by decide)), by decide, by decide⟩
  count := ⟨.last (b := 1) (by decide), by decide, by decide⟩
  terms := by
    intro t ht
    obtain rfl := List.mem_singleton.mp ht
    exact ⟨⟨.last (b := 1) (by decide), by decide, by decide⟩,
      ⟨.last (b := 2) (by decide), by decide, by decide⟩⟩
  distinct := List.pairwise_singleton _ _

theorem ofBytes_spelled_paddedEntry :
    ofBytes paddedEntry.bytes = .ok paddedEntry.entry ∧
      ofBytes (encode paddedEntry.entry) = .ok paddedEntry.entry ∧
      (encode paddedEntry.entry).length ≤ paddedEntry.bytes.length ∧
      encode paddedEntry.entry ≠ paddedEntry.bytes := by
  have hp := isValid_paddedEntry
  obtain ⟨e, he⟩ := (ofBytes_spelled paddedEntry.bytes).1.mpr ⟨paddedEntry, hp, rfl⟩
  obtain ⟨rfl, hback, hle, hiff⟩ := (ofBytes_spelled paddedEntry.bytes).2 e he paddedEntry hp rfl
  -- The bitmap ends in a zero.
  have hne : encode paddedEntry.entry ≠ paddedEntry.bytes := fun h =>
    ((hiff.mp h).terms _ List.mem_cons_self).bitmap rfl
  exact ⟨he, hback, hle, hne⟩

end PeriodEntry

end ShardedSearch.Index
