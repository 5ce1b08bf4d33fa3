import ShardedSearch.Proofs.Index.PeriodEntry
import ShardedSearch.Proofs.Wire.Form

/-! # The bytes that spell a period entry

An entry is read from its key, a varint of the number of its terms, and its terms with their
bitmaps, no two terms alike. The varints may be longer than they need to be, the terms come
in any order, and zeros may end a bitmap. What is read tells how the bytes are cut.
-/

namespace ShardedSearch.Index

open Wire

structure SpelledTerm where
  termLength : Bytes
  term : String
  bitmapLength : Bytes
  bitmap : Bytes

namespace SpelledTerm

variable {t t' : SpelledTerm} {ts ts' : List SpelledTerm} {rest rest' : Bytes}

def bytes (t : SpelledTerm) : Bytes :=
  t.termLength ++ utf8 t.term ++ (t.bitmapLength ++ t.bitmap)

structure IsValid (t : SpelledTerm) : Prop where
  termLength : Varint.Spells (utf8 t.term).length t.termLength
  bitmapLength : Varint.Spells t.bitmap.length t.bitmapLength

def pair (t : SpelledTerm) : String × Bitmap := (t.term, .ofBytes t.bitmap)

theorem IsValid.spellsText (h : t.IsValid) : SpellsText t.term (t.termLength ++ utf8 t.term) :=
  ⟨_, h.termLength, rfl⟩

theorem IsValid.spellsBlock (h : t.IsValid) : SpellsBlock t.bitmap (t.bitmapLength ++ t.bitmap) :=
  ⟨_, h.bitmapLength, rfl⟩

theorem bytes_append (t : SpelledTerm) (rest : Bytes) :
    t.bytes ++ rest = t.termLength ++ utf8 t.term ++ (t.bitmapLength ++ t.bitmap ++ rest) :=
  List.append_assoc ..

theorem eq_of_bytes_append_eq (h : t.IsValid) (h' : t'.IsValid)
    (he : t.bytes ++ rest = t'.bytes ++ rest') : t = t' ∧ rest = rest' := by
  rw [bytes_append, bytes_append] at he
  obtain ⟨hterm, hform, hblocks⟩ := takes_text.eq_of_append_eq h.spellsText h'.spellsText he
  obtain ⟨hbitmap, hblock, hrest⟩ :=
    (takes_block .bitmap).eq_of_append_eq h.spellsBlock h'.spellsBlock hblocks
  rw [hterm] at hform
  rw [hbitmap] at hblock
  refine ⟨?_, hrest⟩
  cases t
  cases t'
  obtain rfl := hterm
  obtain rfl := hbitmap
  obtain rfl := List.append_cancel_right hform
  obtain rfl := List.append_cancel_right hblock
  rfl

theorem eq_of_flatMap_bytes_append_eq (h : ∀ t ∈ ts, t.IsValid) (h' : ∀ t ∈ ts', t.IsValid)
    (hlen : ts.length = ts'.length)
    (he : ts.flatMap bytes ++ rest = ts'.flatMap bytes ++ rest') : ts = ts' ∧ rest = rest' := by
  induction ts generalizing ts' with
  | nil =>
    obtain rfl := List.length_eq_zero_iff.mp hlen.symm
    exact ⟨rfl, he⟩
  | cons t ts ih =>
    cases ts' with
    | nil => cases hlen
    | cons t' ts' =>
      obtain ⟨ht, hts⟩ := List.forall_mem_cons.mp h
      obtain ⟨ht', hts'⟩ := List.forall_mem_cons.mp h'
      rw [List.flatMap_cons, List.flatMap_cons, List.append_assoc, List.append_assoc] at he
      obtain ⟨rfl, hmore⟩ := eq_of_bytes_append_eq ht ht' he
      obtain ⟨rfl, hrest⟩ := ih hts hts' (Nat.succ.inj hlen) hmore
      exact ⟨rfl, hrest⟩

theorem two_mul_length_le (h : ∀ t ∈ ts, t.IsValid) :
    2 * ts.length ≤ (ts.flatMap bytes).length := by
  induction ts with
  | nil => exact Nat.le_refl 0
  | cons t ts ih =>
    obtain ⟨ht, hts⟩ := List.forall_mem_cons.mp h
    have hterm := ht.termLength.groups.length_pos
    have hbitmap := ht.bitmapLength.groups.length_pos
    have := ih hts
    rw [List.flatMap_cons, List.length_append, List.length_cons, bytes]
    simp only [List.length_append]
    omega

end SpelledTerm

/-- The parts of the bytes of an entry. -/
structure SpelledEntry where
  keyLength : Bytes
  key : String
  count : Bytes
  terms : List SpelledTerm

namespace SpelledEntry

variable {p p' : SpelledEntry} {rest rest' : Bytes}

def bytes (p : SpelledEntry) : Bytes :=
  p.keyLength ++ utf8 p.key ++ (p.count ++ p.terms.flatMap SpelledTerm.bytes)

/-- Whether the varints tell the lengths and the number of terms, and no two terms are
alike. -/
structure IsValid (p : SpelledEntry) : Prop where
  keyLength : Varint.Spells (utf8 p.key).length p.keyLength
  count : Varint.Spells p.terms.length p.count
  terms : ∀ t ∈ p.terms, t.IsValid
  distinct : (p.terms.map (·.term)).Nodup

def entry (p : SpelledEntry) : PeriodEntry := ⟨p.key, .ofList (p.terms.map SpelledTerm.pair)⟩

theorem IsValid.spellsText (h : p.IsValid) : SpellsText p.key (p.keyLength ++ utf8 p.key) :=
  ⟨_, h.keyLength, rfl⟩

theorem bytes_append (p : SpelledEntry) (rest : Bytes) : p.bytes ++ rest =
    p.keyLength ++ utf8 p.key ++ (p.count ++ (p.terms.flatMap SpelledTerm.bytes ++ rest)) := by
  rw [bytes, List.append_assoc, List.append_assoc p.count]

theorem eq_of_bytes_append_eq (h : p.IsValid) (h' : p'.IsValid)
    (he : p.bytes ++ rest = p'.bytes ++ rest') : p = p' ∧ rest = rest' := by
  rw [bytes_append, bytes_append] at he
  obtain ⟨hkey, hform, hmap⟩ := takes_text.eq_of_append_eq h.spellsText h'.spellsText he
  obtain ⟨hlen, hcount, hflat⟩ := takes_varint.eq_of_append_eq h.count h'.count hmap
  obtain ⟨hterms, hrest⟩ :=
    SpelledTerm.eq_of_flatMap_bytes_append_eq h.terms h'.terms hlen hflat
  rw [hkey] at hform
  refine ⟨?_, hrest⟩
  cases p
  cases p'
  obtain rfl := hkey
  obtain rfl := hcount
  obtain rfl := hterms
  obtain rfl := List.append_cancel_right hform
  rfl

/-- Bytes are cut into the parts of an entry in at most one way. -/
theorem eq_of_bytes_eq (h : p.IsValid) (h' : p'.IsValid) (he : p.bytes = p'.bytes) : p = p' := by
  have hnil : p.bytes ++ [] = p'.bytes ++ [] := congrArg (· ++ []) he
  exact (eq_of_bytes_append_eq h h' hnil).1

end SpelledEntry

/-! ### Reading -/

namespace PeriodEntry

variable {n : Nat} {terms m : SortedMap String Bitmap} {bs rest : Bytes}

theorem decodeTerms_succ_eq_ok_iff :
    decodeTerms (n + 1) terms bs = .ok (m, rest) ↔
      ∃ t : SpelledTerm, t.IsValid ∧ terms.get? t.term = none ∧ ∃ left, bs = t.bytes ++ left ∧
        decodeTerms n (terms.insert t.pair.1 t.pair.2) left = .ok (m, rest) := by
  have hcontains : ∀ term, terms.contains term = false ↔ terms.get? term = none := by
    intro term
    rw [SortedMap.contains, Option.isSome_eq_false_iff, Option.isNone_iff_eq_none]
  rw [decodeTerms, takes_text.bind_eq_ok_iff]
  constructor
  · rintro ⟨term, _, _, ⟨termLength, htermLength, rfl⟩, rfl, h⟩
    obtain ⟨block, _, left, ⟨bitmapLength, hbitmapLength, rfl⟩, rfl, hrest⟩ :=
      (takes_block _).bind_eq_ok_iff.mp h
    dsimp only at hrest
    split at hrest
    · cases hrest
    · next hnew =>
      refine ⟨⟨termLength, term, bitmapLength, block⟩, ⟨htermLength, hbitmapLength⟩,
        (hcontains term).mp (Bool.not_eq_true _ ▸ hnew), left, ?_, hrest⟩
      simp only [SpelledTerm.bytes, List.append_assoc]
  · rintro ⟨t, ht, hnew, left, rfl, h⟩
    refine ⟨t.term, _, _, ht.spellsText, by rw [SpelledTerm.bytes, List.append_assoc],
      (takes_block _).bind_eq_ok_iff.mpr ⟨t.bitmap, _, left, ht.spellsBlock, rfl, ?_⟩⟩
    dsimp only
    rw [(hcontains t.term).mpr hnew]
    exact h

/-- Terms that are new to a map, no two of them alike. -/
structure AreNew (terms : SortedMap String Bitmap) (ts : List SpelledTerm) : Prop where
  distinct : (ts.map (·.term)).Nodup
  absent : ∀ t ∈ ts, terms.get? t.term = none

theorem areNew_cons_iff {t : SpelledTerm} {ts : List SpelledTerm} :
    AreNew terms (t :: ts) ↔
      terms.get? t.term = none ∧ AreNew (terms.insert t.pair.1 t.pair.2) ts := by
  have hget : ∀ u : SpelledTerm, (terms.insert t.pair.1 t.pair.2).get? u.term =
      if u.term = t.term then some t.pair.2 else terms.get? u.term :=
    fun _ => SortedMap.get?_insert
  constructor
  · rintro ⟨hdistinct, habsent⟩
    obtain ⟨ht, hts⟩ := List.nodup_cons.mp hdistinct
    obtain ⟨hnew, habsent⟩ := List.forall_mem_cons.mp habsent
    refine ⟨hnew, hts, fun u hu => ?_⟩
    rw [hget, if_neg fun he => ht (List.mem_map.mpr ⟨u, hu, he⟩)]
    exact habsent u hu
  · rintro ⟨hnew, hts, habsent⟩
    have hother : ∀ u ∈ ts, u.term ≠ t.term ∧ terms.get? u.term = none := by
      intro u hu
      have := habsent u hu
      rw [hget] at this
      split at this
      · cases this
      · next hne => exact ⟨hne, this⟩
    constructor
    · refine List.nodup_cons.mpr ⟨fun ht => ?_, hts⟩
      obtain ⟨u, hu, he⟩ := List.mem_map.mp ht
      exact (hother u hu).1 he
    · exact List.forall_mem_cons.mpr ⟨hnew, fun u hu => (hother u hu).2⟩

theorem takes_terms (n : Nat) (terms : SortedMap String Bitmap) :
    Takes (decodeTerms n terms) fun m form => ∃ ts : List SpelledTerm, ts.length = n ∧
      (∀ t ∈ ts, t.IsValid) ∧ AreNew terms ts ∧ form = ts.flatMap SpelledTerm.bytes ∧
      m = (ts.map SpelledTerm.pair).foldl (fun m e => m.insert e.1 e.2) terms := by
  intro bs m rest
  induction n generalizing terms bs with
  | zero =>
    rw [decodeTerms]
    constructor
    · intro h
      obtain ⟨rfl, rfl⟩ := Prod.mk.inj (Except.ok.inj h)
      exact ⟨[], ⟨[], rfl, nofun, ⟨List.nodup_nil, nofun⟩, rfl, rfl⟩, rfl⟩
    · rintro ⟨_, ⟨ts, hlen, -, -, rfl, rfl⟩, rfl⟩
      obtain rfl := List.length_eq_zero_iff.mp hlen
      rfl
  | succ n ih =>
    rw [decodeTerms_succ_eq_ok_iff]
    constructor
    · rintro ⟨t, ht, hnew, left, rfl, h⟩
      obtain ⟨_, ⟨ts, rfl, hts, hnews, rfl, rfl⟩, rfl⟩ := (ih _ _).mp h
      refine ⟨_, ⟨t :: ts, rfl, List.forall_mem_cons.mpr ⟨ht, hts⟩,
        areNew_cons_iff.mpr ⟨hnew, hnews⟩, rfl, rfl⟩, ?_⟩
      rw [List.flatMap_cons, List.append_assoc]
    · rintro ⟨_, ⟨ts, hlen, hts, hnews, rfl, rfl⟩, rfl⟩
      cases ts with
      | nil => cases hlen
      | cons t ts =>
        obtain ⟨ht, hts⟩ := List.forall_mem_cons.mp hts
        obtain ⟨hnew, hnews⟩ := areNew_cons_iff.mp hnews
        refine ⟨t, ht, hnew, _, ?_, (ih _ _).mpr ⟨_, ⟨ts, Nat.succ.inj hlen, hts, hnews, rfl, rfl⟩,
          rfl⟩⟩
        rw [List.flatMap_cons, List.append_assoc]

/-- The terms behind their number. No number is told that is too large for the bytes that
follow, so the early check rejects nothing that could be read. -/
theorem takes_termMap :
    Takes decodeTermMap fun m form => ∃ (count : Bytes) (ts : List SpelledTerm),
      Varint.Spells ts.length count ∧ (∀ t ∈ ts, t.IsValid) ∧ (ts.map (·.term)).Nodup ∧
      form = count ++ ts.flatMap SpelledTerm.bytes ∧
      m = .ofList (ts.map SpelledTerm.pair) := by
  intro bs m rest
  rw [decodeTermMap]
  constructor
  · intro h
    split at h
    · next n left hn =>
      split at h
      · cases h
      · obtain ⟨count, hcount, rfl⟩ := Varint.decode_eq_ok_iff.mp hn
        obtain ⟨_, ⟨ts, rfl, hts, hnew, rfl, rfl⟩, rfl⟩ := (takes_terms _ _ _ _ _).mp h
        exact ⟨_, ⟨count, ts, hcount, hts, hnew.distinct, rfl, rfl⟩, (List.append_assoc ..).symm⟩
    · cases h
  · rintro ⟨_, ⟨count, ts, hcount, hts, hdistinct, rfl, rfl⟩, rfl⟩
    have hroom : ¬ (ts.flatMap SpelledTerm.bytes ++ rest).length / 2 < ts.length := by
      have := SpelledTerm.two_mul_length_le hts
      rw [List.length_append]
      omega
    rw [List.append_assoc, hcount.decode]
    simp only [hroom, if_false]
    exact (takes_terms _ _).read_append ⟨ts, rfl, hts, ⟨hdistinct, fun _ _ => rfl⟩, rfl, rfl⟩ rest

/-- An entry is read from the bytes that spell it, and from no others. -/
theorem takes_entry :
    Takes (decode (α := PeriodEntry)) fun e form =>
      ∃ p : SpelledEntry, p.IsValid ∧ p.bytes = form ∧ p.entry = e := by
  intro bs e rest
  change (decode (α := String) bs >>= fun k => decodeTermMap k.2 >>= fun m =>
    pure (⟨k.1, m.1⟩, m.2)) = Except.ok (e, rest) ↔ _
  rw [takes_text.bind_eq_ok_iff]
  constructor
  · rintro ⟨key, _, _, ⟨keyLength, hkeyLength, rfl⟩, rfl, h⟩
    obtain ⟨_, _, left, ⟨count, ts, hcount, hts, hdistinct, rfl, rfl⟩, rfl, hrest⟩ :=
      takes_termMap.bind_eq_ok_iff.mp h
    obtain ⟨rfl, rfl⟩ := Prod.mk.inj (Except.ok.inj hrest)
    refine ⟨_, ⟨⟨keyLength, key, count, ts⟩, ⟨hkeyLength, hcount, hts, hdistinct⟩, rfl, rfl⟩, ?_⟩
    rw [SpelledEntry.bytes_append, List.append_assoc count]
  · rintro ⟨_, ⟨p, hp, rfl, rfl⟩, rfl⟩
    exact ⟨p.key, _, _, hp.spellsText, p.bytes_append rest, takes_termMap.bind_eq_ok_iff.mpr
      ⟨p.entry.terms, _, rest, ⟨p.count, p.terms, hp.count, hp.terms, hp.distinct, rfl, rfl⟩,
        (List.append_assoc ..).symm, rfl⟩⟩

theorem ofBytes_eq_ok_iff {e : PeriodEntry} :
    ofBytes bs = .ok e ↔ ∃ p : SpelledEntry, p.IsValid ∧ p.bytes = bs ∧ p.entry = e := by
  rw [Wire.ofBytes_eq_ok_iff, takes_entry]
  simp only [List.append_nil, exists_eq_right']

end PeriodEntry

end ShardedSearch.Index
