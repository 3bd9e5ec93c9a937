import Mathlib.Tactic.IntervalCases
import RegexEngine.Engine.Codec

/-!
# Encoded values read back

The bytes of a value begin with their own length, so that values may be stored one behind another
and read back without anything between them.  What is read back has source and flags of what was
stored, and nothing else of it.  Conversely bytes that are read as a value are the bytes of that
value: there is one way to write it down.

* `Codec.appendTo`, `Codec.decodeRow` — values stored and read one after another.
* `Codec.decode_encode` — **a value is read back from its bytes, whatever follows them.**
* `Codec.encode_of_decode` — **bytes that are read as a value are its bytes.**
* `Codec.Flawed` — what is wrong with bytes that are not read as a value.
* `Codec.stream_roundtrip` — **rows of values, and all rows of bytes.**
-/

namespace RegexEngine

/-! ### Flag words -/

namespace Flags

theorem toWord_lt (fs : Flags) : fs.toWord < 16 := by
  rcases fs with ⟨_ | _, _ | _, _ | _, _ | _⟩ <;> decide

theorem toWord_of_ofWord {w : Nat} {fs : Flags} (h : ofWord w = .ok fs) : fs.toWord = w := by
  unfold ofWord at h
  split at h
  · next hw =>
    obtain rfl := Except.ok.inj h
    interval_cases w <;> rfl
  · cases h

theorem ofWord_of_le {w : Nat} (h : 16 ≤ w) : ofWord w = .error .unknownFlagBits :=
  if_neg (Nat.not_lt.2 h)

end Flags

/-- The value with its source and its flags, but unlinked and with last index zero. -/
def Value.fresh (v : Value) : Value := ⟨v.source, v.flags, 0, none⟩

/-- A source is checked before there is a value for it. -/
theorem Value.createPlain_eq_ok_iff {source : String} {flags : Flags} {v : Value} :
    createPlain source flags = .ok v ↔
      checkSource source = .ok () ∧ v = { source, flags } := by
  unfold createPlain
  cases checkSource source with
  | error f => simp
  | ok u => simp [eq_comm]

namespace Codec

/-! ### Numbers -/

theorem readWord_wordBytes {n : Nat} (hn : n < 2 ^ 32) (rest : List UInt8) :
    readWord (wordBytes n ++ rest) = (.ok n, rest) := by
  simp only [wordBytes, List.cons_append, List.nil_append, readWord, UInt8.toNat_ofNat',
    Prod.mk.injEq, Except.ok.injEq, and_true]
  omega

/-- The bytes in front of the rest are those of the number that was read. -/
theorem wordBytes_of_readWord {b rest : List UInt8} {n : Nat} (h : readWord b = (.ok n, rest)) :
    n < 2 ^ 32 ∧ b = wordBytes n ++ rest := by
  unfold readWord at h
  split at h
  · next a b c d _ =>
    obtain ⟨hn, rfl⟩ := Prod.mk.inj h
    obtain rfl := Except.ok.inj hn
    have ha := a.toNat_lt
    have hb := b.toNat_lt
    have hc := c.toNat_lt
    have hd := d.toNat_lt
    refine ⟨by omega, ?_⟩
    simp only [wordBytes, List.cons_append, List.nil_append, List.cons.injEq, and_true,
      ← UInt8.toNat_inj, UInt8.toNat_ofNat']
    omega
  · cases h

theorem readWord_of_short {b : List UInt8} (h : b.length < 4) :
    readWord b = (.error .truncatedData, b) := by
  unfold readWord
  split
  · simp only [List.length_cons] at h
    omega
  · rfl

theorem short_of_readWord {b rest : List UInt8} {e : RegexError}
    (h : readWord b = (.error e, rest)) : e = .truncatedData ∧ b.length < 4 := by
  by_cases hb : b.length < 4
  · rw [readWord_of_short hb] at h
    exact ⟨(Except.error.inj (Prod.mk.inj h).1).symm, hb⟩
  · match b, hb with
    | _ :: _ :: _ :: _ :: _, _ => cases h
    | [], hb | [_], hb | [_, _], hb | [_, _, _], hb => simp at hb

/-! ### Sources -/

theorem toList_loop_eq (bs : ByteArray) (i : Nat) (r : List UInt8) :
    ByteArray.toList.loop bs i r = r.reverse ++ bs.data.toList.drop i := by
  induction i, r using ByteArray.toList.loop.induct bs with
  | case1 i r hlt ih =>
    rw [ByteArray.toList.loop, if_pos hlt, ih]
    have hi : i < bs.data.toList.length := hlt
    have hget : bs.get! i = bs.data.toList[i] := by
      rw [ByteArray.get!, Array.getElem_toList]
      exact getElem!_pos bs.data i hlt
    rw [List.drop_eq_getElem_cons hi, hget, List.reverse_cons, List.append_assoc]
    rfl
  | case2 i r hge =>
    rw [ByteArray.toList.loop, if_neg hge, List.drop_eq_nil_of_le (Nat.le_of_not_lt hge),
      List.append_nil]

theorem sourceBytes_eq (source : String) : sourceBytes source = source.toByteArray.data.toList := by
  rw [sourceBytes, ByteArray.toList, toList_loop_eq]
  rfl

theorem length_sourceBytes (source : String) :
    (sourceBytes source).length = source.utf8ByteSize := by
  rw [sourceBytes_eq]
  rfl

/-- The bytes that are UTF-8 are those of the sources. -/
theorem sourceOf?_eq_some_iff {bytes : List UInt8} {source : String} :
    sourceOf? bytes = some source ↔ bytes = sourceBytes source := by
  rw [sourceOf?, String.fromUTF8?, sourceBytes_eq]
  constructor
  · intro h
    split at h
    · obtain rfl := Option.some.inj h
      rfl
    · cases h
  · rintro rfl
    exact dif_pos source.isValidUTF8

/-! ### Values -/

/-- The bytes of a source and flags. -/
def layout (source : String) (flags : Flags) : List UInt8 :=
  wordBytes source.utf8ByteSize ++ sourceBytes source ++ wordBytes flags.toWord

/-- A source that is short enough is encoded. -/
theorem encode_eq_ok_iff {v : Value} {bytes : List UInt8} :
    encode v = .ok bytes ↔ v.source.utf8ByteSize < 2 ^ 32 ∧ bytes = layout v.source v.flags := by
  unfold encode layout
  simp only [length_sourceBytes]
  split
  · next h => simp [h, eq_comm]
  · next h => simp [h]

/-- Behind the length stand that many bytes, which must be a source. -/
theorem decode_wordBytes {n : Nat} (hn : n < 2 ^ 32) (body : List UInt8) :
    decode (wordBytes n ++ body) =
      if body.length < n then (.error .truncatedData, body)
      else
        match sourceOf? (body.take n) with
        | none => (.error .sourceNotUtf8, body)
        | some source => decodeFlags source (body.drop n) := by
  unfold decode
  split
  · next hword => cases hword.symm.trans (readWord_wordBytes hn body)
  · next hword =>
    cases hword.symm.trans (readWord_wordBytes hn body)
    rfl

/-- Behind a source stand the flags. -/
theorem decode_source {source : String} (hsource : source.utf8ByteSize < 2 ^ 32)
    (tail : List UInt8) :
    decode (wordBytes source.utf8ByteSize ++ sourceBytes source ++ tail) =
      decodeFlags source tail := by
  have hlength := length_sourceBytes source
  rw [List.append_assoc, decode_wordBytes hsource, if_neg, ← hlength, List.take_left,
    List.drop_left, sourceOf?_eq_some_iff.2 rfl]
  rw [List.length_append, hlength]
  omega

theorem decodeFlags_wordBytes {w : Nat} (hw : w < 2 ^ 32) (source : String) (rest : List UInt8) :
    decodeFlags source (wordBytes w ++ rest) =
      (Flags.ofWord w >>= Value.createPlain source, rest) := by
  rw [decodeFlags, readWord_wordBytes hw]

/-- What stands behind a value is not looked at. -/
theorem decode_layout {source : String} (hsource : source.utf8ByteSize < 2 ^ 32) (flags : Flags)
    (rest : List UInt8) :
    decode (layout source flags ++ rest) = (Value.createPlain source flags, rest) := by
  have hword : flags.toWord < 2 ^ 32 := Nat.lt_trans flags.toWord_lt (by decide)
  rw [layout, List.append_assoc, decode_source hsource, decodeFlags_wordBytes hword,
    Flags.ofWord_toWord]
  rfl

/-- **A value is read back from its bytes, whatever follows them.** -/
theorem decode_encode {v : Value} {bytes : List UInt8} (hsource : checkSource v.source = .ok ())
    (h : encode v = .ok bytes) (rest : List UInt8) :
    decode (bytes ++ rest) = (.ok v.fresh, rest) := by
  obtain ⟨hsize, rfl⟩ := encode_eq_ok_iff.1 h
  rw [decode_layout hsize, Value.createPlain_eq_ok_iff.2 ⟨hsource, rfl⟩]
  rfl

/-! ### What is wrong with bytes -/

/-- What is wrong with bytes at whose front no value stands. -/
inductive Flawed : List UInt8 → RegexError → Prop
  /-- The length is not complete. -/
  | noLength {b : List UInt8} (h : b.length < 4) : Flawed b .truncatedData
  /-- The source is not complete. -/
  | noSource {n : Nat} {body : List UInt8} (hn : n < 2 ^ 32) (h : body.length < n) :
    Flawed (wordBytes n ++ body) .truncatedData
  /-- What should be the source is not UTF-8. -/
  | notUtf8 {body tail : List UInt8} (hbody : body.length < 2 ^ 32)
    (h : ∀ source, sourceBytes source ≠ body) :
    Flawed (wordBytes body.length ++ body ++ tail) .sourceNotUtf8
  /-- The flag word is not complete. -/
  | noFlags {source : String} {tail : List UInt8} (hsource : source.utf8ByteSize < 2 ^ 32)
    (h : tail.length < 4) :
    Flawed (wordBytes source.utf8ByteSize ++ sourceBytes source ++ tail) .truncatedData
  /-- The flag word has a bit that names no flag. -/
  | unknownBits {source : String} {w : Nat} {rest : List UInt8}
    (hsource : source.utf8ByteSize < 2 ^ 32) (hw : w < 2 ^ 32) (h : 16 ≤ w) :
    Flawed (wordBytes source.utf8ByteSize ++ sourceBytes source ++ wordBytes w ++ rest)
      .unknownFlagBits
  /-- The source is no pattern. -/
  | malformed {source : String} {flags : Flags} {rest : List UInt8} {f : FlawAt}
    (hsource : source.utf8ByteSize < 2 ^ 32) (h : checkSource source = .error f) :
    Flawed (layout source flags ++ rest) f.toError

/-- Bytes with a flaw are refused because of it. -/
theorem decode_of_flawed {b : List UInt8} {e : RegexError} (h : Flawed b e) :
    (decode b).1 = .error e := by
  cases h with
  | noLength h => rw [decode, readWord_of_short h]
  | noSource hn h => rw [decode_wordBytes hn, if_pos h]
  | @notUtf8 body tail hbody h =>
    have hnone : sourceOf? body = none := by
      rw [Option.eq_none_iff_forall_not_mem]
      exact fun source hs => h source (sourceOf?_eq_some_iff.1 hs).symm
    rw [List.append_assoc, decode_wordBytes hbody, if_neg, List.take_left, hnone]
    rw [List.length_append]
    omega
  | noFlags hsource h => rw [decode_source hsource, decodeFlags, readWord_of_short h]
  | unknownBits hsource hw h =>
    rw [List.append_assoc, decode_source hsource, decodeFlags_wordBytes hw, Flags.ofWord_of_le h]
    rfl
  | malformed hsource h => rw [decode_layout hsource, Value.createPlain, h]

/-- **Bytes are those of a checked source and flags in front of the rest, or they have a flaw.** -/
theorem decode_cases (b : List UInt8) :
    (∃ source flags rest, checkSource source = .ok () ∧ source.utf8ByteSize < 2 ^ 32 ∧
        b = layout source flags ++ rest) ∨ ∃ e, Flawed b e := by
  rcases hlength : readWord b with ⟨_ | n, body⟩
  · exact Or.inr ⟨_, .noLength (short_of_readWord hlength).2⟩
  obtain ⟨hn, rfl⟩ := wordBytes_of_readWord hlength
  by_cases hbody : body.length < n
  · exact Or.inr ⟨_, .noSource hn hbody⟩
  have htake : (body.take n).length = n := List.length_take_of_le (Nat.le_of_not_lt hbody)
  cases hsource : sourceOf? (body.take n) with
  | none =>
    have hflawed : Flawed (wordBytes (body.take n).length ++ body.take n ++ body.drop n)
        .sourceNotUtf8 := by
      refine .notUtf8 (htake.symm ▸ hn) fun source hs => ?_
      rw [← hs, sourceOf?_eq_some_iff.2 rfl] at hsource
      cases hsource
    rw [htake, List.append_assoc, List.take_append_drop] at hflawed
    exact Or.inr ⟨_, hflawed⟩
  | some source =>
    -- the source is cut off; what follows it are the flags
    have hbytes := sourceOf?_eq_some_iff.1 hsource
    rw [hbytes, length_sourceBytes] at htake
    subst htake
    obtain ⟨tail, rfl⟩ : ∃ tail, body = sourceBytes source ++ tail :=
      ⟨_, by rw [← hbytes, List.take_append_drop]⟩
    rw [← List.append_assoc]
    rcases hflags : readWord tail with ⟨_ | w, rest⟩
    · exact Or.inr ⟨_, .noFlags hn (short_of_readWord hflags).2⟩
    obtain ⟨hw, rfl⟩ := wordBytes_of_readWord hflags
    rw [← List.append_assoc]
    by_cases hbits : 16 ≤ w
    · exact Or.inr ⟨_, .unknownBits hn hw hbits⟩
    obtain ⟨flags, hword⟩ : ∃ flags, Flags.ofWord w = .ok flags :=
      ⟨_, if_pos (Nat.lt_of_not_le hbits)⟩
    obtain rfl := Flags.toWord_of_ofWord hword
    cases hcheck : checkSource source with
    | error f => exact Or.inr ⟨_, .malformed hn hcheck⟩
    | ok _ => exact Or.inl ⟨source, flags, rest, hcheck, hn, rfl⟩

/-- **Bytes that are read as a value are its bytes**, and the value is a fresh one. -/
theorem encode_of_decode {b rest : List UInt8} {v : Value} (h : decode b = (.ok v, rest)) :
    checkSource v.source = .ok () ∧ v = v.fresh ∧
      ∃ bytes, encode v = .ok bytes ∧ bytes ++ rest = b := by
  rcases decode_cases b with ⟨source, flags, rest', hcheck, hsize, rfl⟩ | ⟨e, hflawed⟩
  · rw [decode_layout hsize] at h
    obtain ⟨hv, rfl⟩ := Prod.mk.inj h
    obtain ⟨-, rfl⟩ := Value.createPlain_eq_ok_iff.1 hv
    exact ⟨hcheck, rfl, _, encode_eq_ok_iff.2 ⟨hsize, rfl⟩, rfl⟩
  · have hrefused := decode_of_flawed hflawed
    rw [h] at hrefused
    cases hrefused

/-- Bytes are refused for what is wrong with them. -/
theorem decode_eq_error_iff {b : List UInt8} {e : RegexError} :
    (decode b).1 = .error e ↔ Flawed b e := by
  refine ⟨fun h => ?_, decode_of_flawed⟩
  rcases decode_cases b with ⟨source, flags, rest, hcheck, hsize, rfl⟩ | ⟨e', hflawed⟩
  · rw [decode_layout hsize, Value.createPlain, hcheck] at h
    cases h
  · obtain rfl := Except.error.inj ((decode_of_flawed hflawed).symm.trans h)
    exact hflawed

/-! ### Values in a row -/

/-- Append the bytes of a value to what was encoded before. -/
def appendTo (buffer : List UInt8) (v : Value) : Except RegexError (List UInt8) :=
  (encode v).map (buffer ++ ·)

/-- Read so many values one after another.  The answer comes with the bytes that were not used. -/
def decodeRow : Nat → List UInt8 → Except RegexError (List Value) × List UInt8
  | 0, bytes => (.ok [], bytes)
  | n + 1, bytes =>
    match decode bytes with
    | (.error e, rest) => (.error e, rest)
    | (.ok v, rest) =>
      match decodeRow n rest with
      | (.error e, rest) => (.error e, rest)
      | (.ok vs, rest) => (.ok (v :: vs), rest)

/-- **Values that are stored one behind another are read back one after another.** -/
theorem decodeRow_appendTo {vs : List Value}
    (hvs : ∀ v ∈ vs, checkSource v.source = .ok () ∧ v.source.utf8ByteSize < 2 ^ 32)
    (buffer rest : List UInt8) :
    ∃ bytes, vs.foldlM appendTo buffer = .ok (buffer ++ bytes) ∧
      decodeRow vs.length (bytes ++ rest) = (.ok (vs.map Value.fresh), rest) := by
  induction vs generalizing buffer with
  | nil => exact ⟨[], by rw [List.append_nil]; rfl, rfl⟩
  | cons v vs ih =>
    obtain ⟨⟨hcheck, hsize⟩, hvs⟩ := List.forall_mem_cons.1 hvs
    have hencode : encode v = .ok (layout v.source v.flags) := encode_eq_ok_iff.2 ⟨hsize, rfl⟩
    obtain ⟨bytes, hrow, hback⟩ := ih hvs (buffer ++ layout v.source v.flags)
    refine ⟨layout v.source v.flags ++ bytes, ?_, ?_⟩
    · rw [List.foldlM_cons, appendTo, hencode, ← List.append_assoc]
      exact hrow
    · rw [List.append_assoc, List.length_cons, decodeRow, decode_encode hcheck hencode]
      dsimp only
      rw [hback]
      rfl

/-- **Rows of values, and all rows of bytes.**  Values whose sources are patterns, and short enough
for the length field, are appended to any buffer, and what was appended is read back in order from
in front of any other bytes: with the same sources and flags, unlinked and with last index zero, and
with nothing used of what follows.  Conversely, whatever bytes are read as a value are the bytes of
this value in front of the rest.  Bytes that are not of this form are refused, and it is said what
is wrong with them: they end too early, what stands for the source is not UTF-8, the flag word has a
bit that names no flag, or the source is no pattern. -/
theorem stream_roundtrip {vs : List Value}
    (hvs : ∀ v ∈ vs, checkSource v.source = .ok () ∧ v.source.utf8ByteSize < 2 ^ 32)
    (buffer rest : List UInt8) :
    (∃ bytes, vs.foldlM appendTo buffer = .ok (buffer ++ bytes) ∧
        decodeRow vs.length (bytes ++ rest) = (.ok (vs.map Value.fresh), rest)) ∧
      (∀ b v r, decode b = (.ok v, r) → ∃ bytes, encode v = .ok bytes ∧ bytes ++ r = b) ∧
      (∀ b, (∃ v bytes r, checkSource v.source = .ok () ∧ encode v = .ok bytes ∧ b = bytes ++ r) ∨
        ∃ e, (decode b).1 = .error e) ∧
      ∀ b e, (decode b).1 = .error e ↔ Flawed b e := by
  refine ⟨decodeRow_appendTo hvs buffer rest, fun b v r h => ?_, fun b => ?_,
    fun b e => decode_eq_error_iff⟩
  · obtain ⟨-, -, hbytes⟩ := encode_of_decode h
    exact hbytes
  · rcases hx : decode b with ⟨e | v, r⟩
    · exact Or.inr ⟨e, rfl⟩
    · obtain ⟨hcheck, -, bytes, hencode, hb⟩ := encode_of_decode hx
      exact Or.inl ⟨v, bytes, r, hcheck, hencode, hb.symm⟩

/-- Two values behind a byte and in front of two others: a linked one whose source has fewer
characters than bytes, and one with the empty source.  Then bytes with an unknown flag. -/
theorem stream_roundtrip_accented :
    let accented : Value := ⟨"a(b)+é", { global := true, sticky := true }, 3, some 5⟩
    let blank : Value := ⟨"", .empty, 0, none⟩
    (∀ v ∈ [accented, blank],
        checkSource v.source = .ok () ∧ v.source.utf8ByteSize < 2 ^ 32) ∧
      (∃ bytes, [accented, blank].foldlM appendTo [9] = .ok ([9] ++ bytes) ∧
        decodeRow 2 (bytes ++ [7, 0]) =
          (.ok [{ accented with lastIndex := 0, link := none }, blank], [7, 0])) ∧
      Flawed [1, 0, 0, 0, 97, 0, 1, 0, 0] .unknownFlagBits := by
  intro accented blank
  have hvs : ∀ v ∈ [accented, blank],
      checkSource v.source = .ok () ∧ v.source.utf8ByteSize < 2 ^ 32 := by
    simp only [List.forall_mem_cons, List.not_mem_nil, false_implies, implies_true, and_true]
    exact ⟨⟨by decide +kernel, by decide⟩, by decide +kernel, by decide⟩
  obtain ⟨hrow, -, -, hflawed⟩ := stream_roundtrip hvs [9] [7, 0]
  exact ⟨hvs, hrow, (hflawed _ _).1 (by decide +kernel)⟩

end Codec

end RegexEngine
