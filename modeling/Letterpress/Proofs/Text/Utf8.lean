import Letterpress.Text.Utf8

/-!
# The symbols of a text

The bytes of a text are read as its characters, and they alone are. Bytes that are cut off are read
as the symbols before the cut, and what is left of a character that is cut in two is none.
-/

namespace Letterpress.Text

theorem width_append (a b : List Symbol) : width (a ++ b) = width a + width b := by
  have hfold : ∀ (l : List Symbol) (n : Nat),
      l.foldl (fun n s => n + s.size) n = n + l.foldl (fun n s => n + s.size) 0 := by
    intro l
    induction l with
    | nil => intro n; rfl
    | cons s l ih =>
      intro n
      rw [List.foldl_cons, List.foldl_cons, ih, ih (0 + s.size)]
      omega
  rw [width, List.foldl_append, hfold]
  rfl

theorem width_cons (s : Symbol) (l : List Symbol) : width (s :: l) = s.size + width l := by
  rw [← List.singleton_append, width_append, width, List.foldl_cons, List.foldl_nil, Nat.zero_add]

namespace Symbol

theorem utf8Encode_append_cons (before : List Char) (c : Char) (rest : List Char) :
    (before ++ c :: rest).utf8Encode =
      before.utf8Encode ++ ((String.utf8EncodeChar c).toByteArray ++ rest.utf8Encode) := by
  simp [List.utf8Encode, List.flatMap_append]

theorem readFrom_utf8Encode (rest : List Char) : ∀ before : List Char,
    readFrom (before ++ rest).utf8Encode before.utf8Encode.size = rest.map .char := by
  induction rest with
  | nil =>
    intro before
    rw [readFrom, List.append_nil, dif_neg (Nat.lt_irrefl _)]
    rfl
  | cons c rest ih =>
    intro before
    have hc : (String.utf8EncodeChar c).toByteArray.size = c.utf8Size := by simp
    have hpos := c.utf8Size_pos
    have hdecode : (before ++ c :: rest).utf8Encode.utf8DecodeChar? before.utf8Encode.size =
        some c := by
      rw [utf8Encode_append_cons, ByteArray.utf8DecodeChar?_eq_utf8DecodeChar?_extract,
        ByteArray.extract_append_eq_right rfl ByteArray.size_append,
          ByteArray.utf8DecodeChar?_utf8EncodeChar_append]
    have hlt : before.utf8Encode.size < (before ++ c :: rest).utf8Encode.size := by
      rw [utf8Encode_append_cons, ByteArray.size_append, ByteArray.size_append, hc]
      omega
    have hnext : before.utf8Encode.size + c.utf8Size = (before ++ [c]).utf8Encode.size := by
      rw [utf8Encode_append_cons, ByteArray.size_append, ByteArray.size_append, hc]
      rfl
    rw [readFrom, dif_pos hlt, hdecode]
    show .char c :: readFrom _ _ = _
    rw [hnext, List.map_cons, ← ih (before ++ [c]), List.append_assoc]
    rfl

theorem read_toUTF8 (s : String) : read s.toUTF8 = ofString s := by
  have := readFrom_utf8Encode s.toList []
  rw [List.nil_append, String.utf8Encode_toList] at this
  exact this

theorem ofString_append (a b : String) : ofString (a ++ b) = ofString a ++ ofString b := by
  simp [ofString]

theorem ofString_ofList (cs : List Char) : ofString (String.ofList cs) = cs.map .char := by
  rw [ofString, String.toList_ofList]

theorem mem_ofString {c : Char} {s : String} : .char c ∈ ofString s ↔ c ∈ s.toList := by
  simp [ofString]

theorem ofString_injective : Function.Injective ofString := by
  intro a b h
  have := congrArg text? h
  rwa [text?_ofString, text?_ofString, Option.some.injEq] at this

/-- Symbols that are a text are the characters of that text. -/
theorem ofString_of_text? {symbols : List Symbol} {s : String} (h : text? symbols = some s) :
    ofString s = symbols := by
  have chars : ∀ (symbols : List Symbol) (cs : List Char), symbols.mapM char? = some cs →
      cs.map .char = symbols := by
    intro symbols
    induction symbols with
    | nil => intro cs h; simp_all
    | cons symbol rest ih =>
      intro cs h
      cases symbol with
      | stray b => simp [char?] at h
      | char c =>
        simp only [List.mapM_cons, char?, Option.bind_eq_bind, Option.bind_some, Option.pure_def,
          Option.bind_eq_some_iff, Option.some.injEq] at h
        obtain ⟨more, hmore, rfl⟩ := h
        rw [List.map_cons, ih more hmore]
  obtain ⟨cs, hcs, rfl⟩ := Option.map_eq_some_iff.mp h
  rw [ofString_ofList, chars symbols cs hcs]

/-! ### Bytes that are cut off -/

/-- The bytes of the character that begins at a place. -/
theorem extract_of_utf8DecodeChar? {bytes : ByteArray} {i : Nat} {c : Char}
    (h : bytes.utf8DecodeChar? i = some c) :
    bytes.extract i (i + c.utf8Size) = (String.utf8EncodeChar c).toByteArray := by
  have hsize := ByteArray.le_size_of_utf8DecodeChar?_eq_some h
  rw [ByteArray.utf8DecodeChar?_eq_utf8DecodeChar?_extract] at h
  rw [String.toByteArray_utf8EncodeChar_of_utf8DecodeChar?_eq_some h, ByteArray.extract_extract,
    Nat.add_zero, Nat.min_eq_left hsize]

theorem utf8DecodeChar?_of_append {bytes more : ByteArray} {i : Nat} {c : Char}
    (h : (bytes ++ more).utf8DecodeChar? i = some c) (hfits : i + c.utf8Size ≤ bytes.size) :
    bytes.utf8DecodeChar? i = some c := by
  have hspelled : bytes.extract i (i + c.utf8Size) = (String.utf8EncodeChar c).toByteArray := by
    rw [← extract_of_utf8DecodeChar? h, ByteArray.extract_append, Nat.sub_eq_zero_of_le hfits,
      ByteArray.extract_eq_empty_iff.mpr (Nat.le_trans (Nat.min_le_left ..) (Nat.zero_le _)),
      ByteArray.append_empty]
  rw [ByteArray.utf8DecodeChar?_eq_utf8DecodeChar?_extract,
    ByteArray.extract_eq_extract_append_extract (i + c.utf8Size) (by omega) hfits, hspelled,
    ByteArray.utf8DecodeChar?_utf8EncodeChar_append]

/-- No character begins inside another one. -/
theorem utf8DecodeChar?_inside {bytes : ByteArray} {i j : Nat} {c : Char}
    (h : bytes.utf8DecodeChar? i = some c) (hi : i < j) (hj : j < i + c.utf8Size) :
    bytes.utf8DecodeChar? j = none := by
  have hsize := ByteArray.le_size_of_utf8DecodeChar?_eq_some h
  rw [Option.eq_none_iff_forall_ne_some]
  intro d hd
  have hfirst := ByteArray.isUTF8FirstByte_of_isSome_utf8DecodeChar?
    (Option.isSome_iff_exists.mpr ⟨d, hd⟩)
  have hbytes : j < bytes.size := by omega
  have hspelled : j - i < (String.utf8EncodeChar c).length := by
    rw [String.length_utf8EncodeChar]
    omega
  have hextract : j - i < (bytes.extract i (i + c.utf8Size)).size := by
    rw [ByteArray.size_extract]
    omega
  have hbyte : bytes[j] = (String.utf8EncodeChar c)[j - i] := by
    have hget : (bytes.extract i (i + c.utf8Size))[j - i] = bytes[j] := by
      rw [ByteArray.getElem_extract]
      congr 1
      omega
    rw [← hget]
    simp only [extract_of_utf8DecodeChar? h]
    rw [List.getElem_toByteArray]
  rw [hbyte, UInt8.isUTF8FirstByte_getElem_utf8EncodeChar] at hfirst
  omega

/-- What is left of a character that is cut begins no character. -/
theorem utf8DecodeChar?_of_cut {bytes more : ByteArray} {i j : Nat} {c : Char}
    (h : (bytes ++ more).utf8DecodeChar? i = some c) (hcut : ¬ i + c.utf8Size ≤ bytes.size)
    (hj : i ≤ j) : bytes.utf8DecodeChar? j = none := by
  rw [Option.eq_none_iff_forall_ne_some]
  intro d hshort
  have hsize := ByteArray.le_size_of_utf8DecodeChar?_eq_some hshort
  have hpos := d.utf8Size_pos
  have hlong := ByteArray.utf8DecodeChar?_append_eq_some hshort more
  rcases Nat.eq_or_lt_of_le hj with rfl | hj
  · rw [h] at hlong
    cases hlong
    omega
  · rw [utf8DecodeChar?_inside h hj (by omega)] at hlong
    cases hlong

theorem readFrom_of_some {bytes : ByteArray} {i : Nat} {c : Char}
    (h : bytes.utf8DecodeChar? i = some c) :
    readFrom bytes i = .char c :: readFrom bytes (i + c.utf8Size) := by
  have hsize := ByteArray.le_size_of_utf8DecodeChar?_eq_some h
  have hpos := c.utf8Size_pos
  rw [readFrom, dif_pos (by omega), h]

theorem readFrom_of_none {bytes : ByteArray} {i : Nat} (hi : i < bytes.size)
    (h : bytes.utf8DecodeChar? i = none) :
    readFrom bytes i = .stray bytes[i] :: readFrom bytes (i + 1) := by
  rw [readFrom, dif_pos hi, h]

theorem readFrom_of_size_le {bytes : ByteArray} {i : Nat} (hi : bytes.size ≤ i) :
    readFrom bytes i = [] := by
  rw [readFrom, dif_neg (by omega)]

/-- Symbols that are all parts of no character. -/
def AreStray (symbols : List Symbol) : Prop := ∀ s ∈ symbols, ∃ b, s = .stray b

theorem areStray_readFrom {bytes : ByteArray} {i : Nat}
    (h : ∀ j, i ≤ j → bytes.utf8DecodeChar? j = none) : AreStray (readFrom bytes i) := by
  by_cases hi : i < bytes.size
  · rw [readFrom_of_none hi (h i (Nat.le_refl i))]
    have hrest : AreStray (readFrom bytes (i + 1)) :=
      areStray_readFrom fun j hj => h j (by omega)
    exact List.forall_mem_cons.mpr ⟨⟨_, rfl⟩, hrest⟩
  · rw [readFrom_of_size_le (by omega)]
    exact List.forall_mem_nil _
termination_by bytes.size - i

/-- Where bytes are cut off, their symbols are cut off, and the bytes of a character that is cut in
two are left. -/
theorem readFrom_append (bytes more : ByteArray) (i : Nat) : ∃ k strays,
    readFrom bytes i = (readFrom (bytes ++ more) i).take k ++ strays ∧ AreStray strays ∧
      i + width ((readFrom (bytes ++ more) i).take k) ≤ max i bytes.size := by
  by_cases hi : i < bytes.size
  · cases hd : (bytes ++ more).utf8DecodeChar? i with
    | none =>
      have hshort : bytes.utf8DecodeChar? i = none := by
        rw [Option.eq_none_iff_forall_ne_some]
        intro c hc
        rw [ByteArray.utf8DecodeChar?_append_eq_some hc more] at hd
        cases hd
      have hlong : i < (bytes ++ more).size := by rw [ByteArray.size_append]; omega
      obtain ⟨k, strays, hread, hstrays, hk⟩ := readFrom_append bytes more (i + 1)
      refine ⟨k + 1, strays, ?_, hstrays, ?_⟩
      · rw [readFrom_of_none hi hshort, readFrom_of_none hlong hd, hread,
          ByteArray.getElem_append_left hi]
        rfl
      · rw [readFrom_of_none hlong hd, List.take_succ_cons, width_cons, Symbol.size]
        omega
    | some c =>
      by_cases hfits : i + c.utf8Size ≤ bytes.size
      · have hpos := c.utf8Size_pos
        obtain ⟨k, strays, hread, hstrays, hk⟩ := readFrom_append bytes more (i + c.utf8Size)
        refine ⟨k + 1, strays, ?_, hstrays, ?_⟩
        · rw [readFrom_of_some (utf8DecodeChar?_of_append hd hfits), readFrom_of_some hd, hread]
          rfl
        · rw [readFrom_of_some hd, List.take_succ_cons, width_cons, Symbol.size]
          omega
      · have hcut := areStray_readFrom fun j => utf8DecodeChar?_of_cut hd hfits
        exact ⟨0, readFrom bytes i, rfl, hcut, Nat.le_max_left ..⟩
  · refine ⟨0, [], ?_, List.forall_mem_nil _, Nat.le_max_left ..⟩
    rw [readFrom_of_size_le (by omega)]
    rfl
termination_by bytes.size - i

theorem read_extract (bytes : ByteArray) (n : Nat) : ∃ k strays,
    read (bytes.extract 0 n) = (read bytes).take k ++ strays ∧ AreStray strays ∧
      width ((read bytes).take k) ≤ n := by
  have hbytes : bytes.extract 0 n ++ bytes.extract n bytes.size = bytes := by
    rw [ByteArray.extract_append_extract, Nat.zero_min, ByteArray.extract_zero_max_size]
  obtain ⟨k, strays, hread, hstrays, hk⟩ :=
    readFrom_append (bytes.extract 0 n) (bytes.extract n bytes.size) 0
  rw [hbytes] at hread hk
  rw [ByteArray.size_extract] at hk
  exact ⟨k, strays, hread, hstrays, by rw [read]; omega⟩

end Symbol

end Letterpress.Text
