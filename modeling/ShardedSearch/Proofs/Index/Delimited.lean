import ShardedSearch.Index.UidList
import ShardedSearch.Proofs.Index.PeriodForm

/-! # Values of the indexes tell where their forms end

A uid list and a period entry, as the texts, numbers and blocks that they are made of, are read
back from their forms whatever follows, and from no part of them.
-/

namespace ShardedSearch.Index

open Wire

namespace UidList

variable {l : UidList} {uids : List String}

/-- Whether a varint can tell the number of identifiers and the length of each. -/
structure HasForm (l : UidList) : Prop where
  length : l.uids.length < 2 ^ 64
  uids : ∀ uid ∈ l.uids, uid.utf8ByteSize < 2 ^ 64

theorem length_le_length_flatMap (uids : List String) :
    uids.length ≤ (uids.flatMap encode).length := by
  induction uids with
  | nil => exact Nat.le_refl 0
  | cons uid uids ih =>
    have := Varint.one_le_length_encode (utf8 uid).length
    rw [List.flatMap_cons, List.length_append, List.length_cons]
    simp only [Form.encode, encodeBlock, List.length_append] at ih ⊢
    omega

theorem isDelimited_decodeUids : IsDelimited decodeUids := by
  intro bs uids rest more h
  rw [decodeUids] at h ⊢
  split at h
  · next n left hn =>
    split at h
    · cases h
    · next hroom =>
      have hroom' : ¬ (left ++ more).length < n := by
        rw [List.length_append]
        omega
      rw [takes_varint.isDelimited _ _ _ more hn]
      simp only [hroom', if_false]
      exact isDelimited_decodeMany takes_text.isDelimited n _ _ _ more h
  · cases h

theorem decodeUids_encodeUids (hlen : uids.length < 2 ^ 64)
    (h : ∀ uid ∈ uids, uid.utf8ByteSize < 2 ^ 64) (rest : Bytes) :
    decodeUids (encodeUids uids ++ rest) = .ok (uids, rest) := by
  have hroom : ¬ (uids.flatMap encode ++ rest).length < uids.length := by
    have := length_le_length_flatMap uids
    rw [List.length_append]
    omega
  rw [decodeUids, encodeUids, List.append_assoc, Varint.decode_encode hlen]
  simp only [hroom, if_false]
  exact decodeMany_flatMap (fun uid hu => delimits_string (h uid hu)) rest

theorem isDelimited_uidList : IsDelimited (decode (α := UidList)) := by
  have hlist : ∀ count ignore uids,
      IsDelimited fun bs => pure ((⟨count, ignore, uids⟩ : UidList), bs) :=
    fun _ _ _ => isDelimited_pure _
  exact isDelimited_uInt64.bind fun count => isDelimited_bool.bind fun ignore =>
    isDelimited_decodeUids.bind (hlist count ignore)

theorem delimits_uidList (h : l.HasForm) : Delimits l := by
  refine delimits_of_isDelimited isDelimited_uidList ?_ ?_
  · intro rest
    change (decode (encode l.count ++ encode l.ignore ++ encodeUids l.uids ++ rest) >>= fun p =>
      decode p.2 >>= fun q => decodeUids q.2 >>= fun r => pure (⟨p.1, q.1, r.1⟩, r.2)) =
        Except.ok (l, rest)
    rw [List.append_assoc, List.append_assoc, (delimits_uInt64 l.count).decode_append]
    simp only [bind, Except.bind, (delimits_bool l.ignore).decode_append,
      decodeUids_encodeUids h.length h.uids]
    rfl
  · change size l.count + size l.ignore + Varint.size l.uids.length +
      (l.uids.map size).foldr (· + ·) 0 =
        (encode l.count ++ encode l.ignore ++ encodeUids l.uids).length
    rw [(delimits_uInt64 l.count).size_eq, (delimits_bool l.ignore).size_eq, Varint.size_eq,
      sum_map_size size_string, encodeUids]
    simp only [List.length_append]
    omega

end UidList

namespace PeriodEntry

variable {e : PeriodEntry}

theorem size_eq (e : PeriodEntry) : size e = (encode e).length := by
  have hterm : ∀ t : String × Bitmap,
      size t.1 + blockSize t.2.toBytes.length = (encodeTerm t).length := by
    intro t
    rw [encodeTerm, List.length_append, size_string, blockSize_eq]
  change size e.key + Varint.size e.terms.size + (e.terms.toList.map _).foldr (· + ·) 0 =
    (encode e.key ++ Varint.encode e.terms.size ++ e.terms.toList.flatMap encodeTerm).length
  rw [sum_map_size hterm, size_string, Varint.size_eq]
  simp only [List.length_append]

theorem delimits_entry (h : e.HasForm) : Delimits e :=
  delimits_of_isDelimited takes_entry.isDelimited (decode_encode_entry h) (size_eq e)

end PeriodEntry

/-- Every value with a byte form tells where its form ends. -/
theorem forms_delimit :
    (∀ s : String, s.utf8ByteSize < 2 ^ 64 → Delimits s) ∧
    (∀ bs : Bytes, bs.length < 2 ^ 64 → Delimits bs) ∧
    (∀ n : UInt64, Delimits n) ∧ (∀ b : Bool, Delimits b) ∧
    (∀ l : UidList, l.HasForm → Delimits l) ∧
    ∀ e : PeriodEntry, e.HasForm → Delimits e :=
  ⟨fun _ => delimits_string, fun _ => delimits_bytes, delimits_uInt64, delimits_bool,
    fun _ => UidList.delimits_uidList, fun _ => PeriodEntry.delimits_entry⟩

theorem forms_delimit_year : Delimits "2024" ∧ Delimits ([0, 255] : Bytes) ∧
    Delimits (300 : UInt64) ∧ Delimits true ∧ Delimits (⟨2, false, ["u", "v"]⟩ : UidList) ∧
    Delimits (⟨"2024", SortedMap.empty.insert "A" (.ofBytes [5])⟩ : PeriodEntry) := by
  obtain ⟨hstring, hbytes, huInt64, hbool, huids, hentry⟩ := forms_delimit
  have hbits : (Bitmap.ofBytes [5]).toBytes.length ≤ 1 :=
    (Bitmap.fitsIn_ofBytes (Nat.le_refl _)).length_toBytes_le
  refine ⟨hstring _ (by decide), hbytes _ (by decide), huInt64 _, hbool _,
    huids _ ⟨by decide, by decide⟩, hentry _ ⟨by decide, by decide, fun t ht => ?_⟩⟩
  obtain rfl := List.mem_singleton.mp ht
  exact ⟨by decide, Nat.lt_of_le_of_lt hbits (by decide)⟩

end ShardedSearch.Index
