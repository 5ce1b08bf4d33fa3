import Mathlib.Data.List.Basic
import ShardedSearch.Proofs.Wire.Varint
import ShardedSearch.Wire.Form

/-! # Readers and the forms they take

A reader of byte forms takes some of them off the front and leaves the rest alone. So what
follows a form cannot change its value, and a form that is cut short is none.
-/

namespace ShardedSearch.Wire

theorem ofBytes_eq_ok_iff {α : Type} [Form α] {bs : Bytes} {v : α} :
    ofBytes bs = .ok v ↔ decode bs = .ok (v, []) := by
  rw [ofBytes]
  split
  · next w h => simp [h]
  · next w rest hne h =>
    rw [h]
    simp only [reduceCtorEq, false_iff]
    intro hv
    exact hne (Prod.mk.inj (Except.ok.inj hv)).2
  · next h => simp [h]

section Readers

variable {α β : Type} {read : Bytes → Except WireError (α × Bytes)}
variable {next : α → Bytes → Except WireError (β × Bytes)}
variable {spells : α → Bytes → Prop} {bs bs' rest rest' : Bytes} {v w : α}

/-- Whether what a reader finds stays the same, whatever more bytes follow. -/
def IsDelimited (read : Bytes → Except WireError (α × Bytes)) : Prop :=
  ∀ bs v rest more, read bs = .ok (v, rest) → read (bs ++ more) = .ok (v, rest ++ more)

theorem IsDelimited.bind (hread : IsDelimited read) (hnext : ∀ a, IsDelimited (next a)) :
    IsDelimited fun bs => read bs >>= fun p => next p.1 p.2 := by
  intro bs v rest more h
  cases hr : read bs with
  | error e =>
    simp only [hr] at h
    cases h
  | ok p =>
    simp only [hr] at h
    simp only [hread bs p.1 p.2 more hr]
    exact hnext p.1 p.2 v rest more h

theorem isDelimited_pure (v : α) : IsDelimited fun bs => pure (v, bs) := by
  intro bs w rest more h
  obtain ⟨rfl, rfl⟩ := Prod.mk.inj (Except.ok.inj h)
  rfl

/-- Whether a reader takes just the given forms of its values, whatever follows them. -/
def Takes (read : Bytes → Except WireError (α × Bytes)) (spells : α → Bytes → Prop) : Prop :=
  ∀ bs v rest, read bs = .ok (v, rest) ↔ ∃ form, spells v form ∧ bs = form ++ rest

theorem Takes.read_append (h : Takes read spells) (hs : spells v bs) (rest : Bytes) :
    read (bs ++ rest) = .ok (v, rest) :=
  (h _ _ _).mpr ⟨bs, hs, rfl⟩

theorem Takes.isDelimited (h : Takes read spells) : IsDelimited read := by
  intro bs v rest more hr
  obtain ⟨form, hs, rfl⟩ := (h _ _ _).mp hr
  rw [List.append_assoc]
  exact h.read_append hs _

theorem Takes.eq_of_append_eq (h : Takes read spells) (hs : spells v bs) (hs' : spells w bs')
    (he : bs ++ rest = bs' ++ rest') : v = w ∧ bs = bs' ∧ rest = rest' := by
  have hr := h.read_append hs rest
  rw [he, h.read_append hs' rest'] at hr
  obtain ⟨rfl, rfl⟩ := Prod.mk.inj (Except.ok.inj hr)
  exact ⟨rfl, List.append_cancel_right he, rfl⟩

/-- What comes after a reader starts behind a form. -/
theorem Takes.bind_eq_ok_iff (h : Takes read spells) {γ : Type}
    {f : α × Bytes → Except WireError γ} {c : γ} :
    (read bs >>= f) = .ok c ↔
      ∃ v form rest, spells v form ∧ bs = form ++ rest ∧ f (v, rest) = .ok c := by
  constructor
  · intro hb
    cases hr : read bs with
    | error e =>
      rw [hr] at hb
      cases hb
    | ok p =>
      rw [hr] at hb
      obtain ⟨form, hform, rfl⟩ := (h bs p.1 p.2).mp hr
      exact ⟨p.1, form, p.2, hform, rfl, hb⟩
  · rintro ⟨v, form, rest, hform, rfl, hf⟩
    rw [h.read_append hform]
    exact hf

end Readers

theorem takes_varint : Takes Varint.decode Varint.Spells := fun _ _ _ => Varint.decode_eq_ok_iff

/-! ### Blocks and texts -/

def SpellsBlock (block form : Bytes) : Prop :=
  ∃ header, Varint.Spells block.length header ∧ form = header ++ block

def SpellsText (s : String) (form : Bytes) : Prop := SpellsBlock (utf8 s) form

theorem takes_block (part : Part) : Takes (decodeBlock part) SpellsBlock := by
  intro bs block rest
  rw [decodeBlock]
  constructor
  · intro h
    split at h
    · next n left hn =>
      split at h
      · cases h
      · next hle =>
        obtain ⟨rfl, rfl⟩ := Prod.mk.inj (Except.ok.inj h)
        obtain ⟨header, hheader, rfl⟩ := Varint.decode_eq_ok_iff.mp hn
        have hlen : (left.take n).length = n := List.length_take_of_le (Nat.not_lt.mp hle)
        refine ⟨header ++ left.take n, ⟨header, by rwa [hlen], rfl⟩, ?_⟩
        rw [List.append_assoc, List.take_append_drop]
    · cases h
  · rintro ⟨_, ⟨header, hheader, rfl⟩, rfl⟩
    have hroom : ¬ (block ++ rest).length < block.length := by simp
    rw [List.append_assoc, hheader.decode]
    simp only [hroom, if_false, List.take_left, List.drop_left]

theorem ofUtf8?_eq_some_iff {bs : Bytes} {s : String} : ofUtf8? bs = some s ↔ bs = utf8 s := by
  rw [ofUtf8?, String.fromUTF8?]
  split
  · next h =>
    rw [Option.some.injEq]
    constructor
    · rintro rfl
      rfl
    · rintro rfl
      exact String.toByteArray_inj.mp rfl
  · next h =>
    simp only [reduceCtorEq, false_iff]
    rintro rfl
    exact h s.isValidUTF8

theorem takes_text : Takes (decode (α := String)) SpellsText := by
  intro bs s rest
  simp only [Form.decode]
  constructor
  · intro h
    split at h
    · next block left hblock =>
      split at h
      · next t ht =>
        obtain ⟨rfl, rfl⟩ := Prod.mk.inj (Except.ok.inj h)
        rw [ofUtf8?_eq_some_iff.mp ht] at hblock
        exact (takes_block _ _ _ _).mp hblock
      · cases h
    · cases h
  · intro h
    rw [(takes_block _ _ _ _).mpr h]
    simp only [ofUtf8?_eq_some_iff.mpr rfl]

theorem spellsBlock_encodeBlock {bs : Bytes} (h : bs.length < 2 ^ 64) :
    SpellsBlock bs (encodeBlock bs) :=
  ⟨_, Varint.spells_encode h, rfl⟩

theorem spellsText_encode {s : String} (h : s.utf8ByteSize < 2 ^ 64) : SpellsText s (encode s) :=
  spellsBlock_encodeBlock h

theorem blockSize_eq (bs : Bytes) : blockSize bs.length = (encodeBlock bs).length := by
  rw [blockSize, encodeBlock, List.length_append, Varint.size_eq]

theorem sum_map_size {α : Type} {size : α → Nat} {form : α → Bytes}
    (h : ∀ v, size v = (form v).length) (vs : List α) :
    (vs.map size).foldr (· + ·) 0 = (vs.flatMap form).length := by
  induction vs with
  | nil => rfl
  | cons v vs ih =>
    rw [List.map_cons, List.foldr_cons, List.flatMap_cons, List.length_append, ih, h]

/-! ### Values that tell where their forms end -/

/-- Whether a value is read back from its form, whatever follows it, and from no less than all of
the form, of which its size is the length. -/
structure Delimits {α : Type} [Form α] (v : α) : Prop where
  decode_append : ∀ rest, decode (encode v ++ rest) = .ok (v, rest)
  size_eq : size v = (encode v).length
  error_of_prefix : ∀ bs, bs <+: encode v → bs ≠ encode v →
    ∃ e, (ofBytes bs : Except WireError α) = .error e

theorem delimits_of_isDelimited {α : Type} [Form α] {v : α}
    (hread : IsDelimited (decode (α := α)))
    (hdecode : ∀ rest, decode (encode v ++ rest) = .ok (v, rest))
    (hsize : size v = (encode v).length) : Delimits v where
  decode_append := hdecode
  size_eq := hsize
  error_of_prefix := by
    rintro bs ⟨more, hmore⟩ hne
    cases ho : (ofBytes bs : Except WireError α) with
    | error e => exact ⟨e, rfl⟩
    | ok w =>
      -- With the rest of the form, the bytes would still be those of `w`, and the rest be left.
      have hw := hread bs w [] more (ofBytes_eq_ok_iff.mp ho)
      have hv := hdecode []
      rw [List.append_nil, ← hmore, hw] at hv
      obtain ⟨-, rfl⟩ := Prod.mk.inj (Except.ok.inj hv)
      rw [List.append_nil] at hmore
      exact absurd hmore hne

theorem size_string (s : String) : size s = (encode s).length := blockSize_eq (utf8 s)

theorem delimits_string {s : String} (h : s.utf8ByteSize < 2 ^ 64) : Delimits s :=
  delimits_of_isDelimited takes_text.isDelimited (takes_text.read_append (spellsText_encode h))
    (size_string s)

theorem delimits_bytes {bs : Bytes} (h : bs.length < 2 ^ 64) : Delimits bs :=
  delimits_of_isDelimited (takes_block _).isDelimited
    ((takes_block _).read_append (spellsBlock_encodeBlock h)) (blockSize_eq bs)

theorem isDelimited_uInt64 : IsDelimited (decode (α := UInt64)) := by
  intro bs v rest more h
  simp only [Form.decode] at h ⊢
  cases hn : Varint.decode bs with
  | error e =>
    rw [hn] at h
    cases h
  | ok p =>
    rw [hn] at h
    obtain ⟨rfl, rfl⟩ := Prod.mk.inj (Except.ok.inj h)
    rw [takes_varint.isDelimited bs p.1 p.2 more hn]
    rfl

theorem delimits_uInt64 (n : UInt64) : Delimits n := by
  refine delimits_of_isDelimited isDelimited_uInt64 ?_ (Varint.size_eq n.toNat)
  intro rest
  simp only [Form.decode, Form.encode, Varint.decode_encode n.toNat_lt, Except.map,
    UInt64.ofNat_toNat]

theorem isDelimited_bool : IsDelimited (decode (α := Bool)) := by
  intro bs v rest more h
  cases bs with
  | nil => cases h
  | cons b bs =>
    obtain ⟨rfl, rfl⟩ := Prod.mk.inj (Except.ok.inj h)
    rfl

theorem delimits_bool (b : Bool) : Delimits b :=
  delimits_of_isDelimited isDelimited_bool (fun _ => by cases b <;> rfl) rfl

section Many

variable {α : Type} [Form α] {vs : List α}

theorem decodeMany_succ (n : Nat) : decodeMany (α := α) (n + 1) =
    fun bs => decode bs >>= fun p => decodeMany n p.2 >>= fun q => pure (p.1 :: q.1, q.2) := by
  funext bs
  rw [decodeMany]
  simp only [bind, Except.bind]
  split
  · next v rest h =>
    rw [h]
    rfl
  · next e h =>
    rw [h]

theorem isDelimited_decodeMany (h : IsDelimited (decode (α := α))) (n : Nat) :
    IsDelimited (decodeMany (α := α) n) := by
  induction n with
  | zero => exact isDelimited_pure []
  | succ n ih =>
    rw [decodeMany_succ]
    exact h.bind fun v => ih.bind fun vs => isDelimited_pure (v :: vs)

theorem decodeMany_flatMap (h : ∀ v ∈ vs, Delimits v) (rest : Bytes) :
    decodeMany vs.length (vs.flatMap encode ++ rest) = .ok (vs, rest) := by
  induction vs with
  | nil => rfl
  | cons v vs ih =>
    obtain ⟨hv, hvs⟩ := List.forall_mem_cons.mp h
    rw [List.length_cons, decodeMany, List.flatMap_cons, List.append_assoc, hv.decode_append]
    simp only [ih hvs]
    rfl

end Many

end ShardedSearch.Wire
