import Mathlib

/-!
# Texts as bytes

A text is written in UTF-8. Read in UTF-8 the bytes give the text back; read in
Latin-1 every byte is a character of its own, so they do if and only if the text
is ASCII (`latin1_utf8_eq_iff`). What is read is still different for different
texts (`latin1_utf8_injective`).

`quote` writes the bytes into a URL, with `unquote` for the way back. A quoted
text has no slash and is only empty for the empty text.
-/

namespace Inmanta

/-- `s.encode()` -/
def utf8 (s : List Char) : List UInt8 := s.flatMap String.utf8EncodeChar

/-- `b.decode("latin-1")` -/
def latin1 (b : List UInt8) : List Char := b.map fun x => Char.ofNat x.toNat

def Ascii (s : List Char) : Prop := ∀ c ∈ s, c.toNat < 128

instance (s : List Char) : Decidable (Ascii s) := inferInstanceAs (Decidable (∀ c ∈ s, _))

/-! ## UTF-8 -/

@[simp] theorem utf8_nil : utf8 [] = [] := rfl

@[simp] theorem utf8_cons (c : Char) (s : List Char) :
    utf8 (c :: s) = String.utf8EncodeChar c ++ utf8 s := rfl

theorem utf8_append (s t : List Char) : utf8 (s ++ t) = utf8 s ++ utf8 t :=
  List.flatMap_append

/-- `b.decode()`, where `b` is UTF-8. -/
def decodeUtf8 (b : List UInt8) : Option (List Char) :=
  b.toByteArray.utf8Decode?.map Array.toList

theorem decodeUtf8_utf8 (s : List Char) : decodeUtf8 (utf8 s) = some s := by
  have h : (utf8 s).toByteArray.utf8Decode? = some s.toArray := List.utf8Decode?_utf8Encode
  rw [decodeUtf8, h]
  rfl

theorem utf8_injective : Function.Injective utf8 := fun s t h => by
  have hs := decodeUtf8_utf8 s
  rw [h, decodeUtf8_utf8] at hs
  exact (Option.some.inj hs).symm

theorem utf8EncodeChar_of_ascii {c : Char} (h : c.toNat < 128) :
    String.utf8EncodeChar c = [UInt8.ofNat c.toNat] := by
  have hc : c.val.toNat ≤ 127 := Nat.le_of_lt_succ h
  simp only [String.utf8EncodeChar, if_pos hc]
  rfl

theorem length_utf8 (s : List Char) : (utf8 s).length = (s.map Char.utf8Size).sum := by
  induction s with
  | nil => rfl
  | cons c s ih => simp [ih]

/-! ## Latin-1 -/

theorem latin1_append (a b : List UInt8) : latin1 (a ++ b) = latin1 a ++ latin1 b :=
  List.map_append

theorem length_latin1 (b : List UInt8) : (latin1 b).length = b.length := List.length_map _

theorem toNat_ofNat_byte (b : UInt8) : (Char.ofNat b.toNat).toNat = b.toNat := by
  have hb : b.toNat < 256 := b.toNat_lt
  have hvalid : b.toNat.isValidChar := .inl (by omega)
  simp [Char.ofNat, hvalid, Char.ofNatAux, Char.toNat]

theorem latin1_injective : Function.Injective latin1 := by
  refine List.map_injective_iff.mpr fun x y h => ?_
  have hxy := congrArg Char.toNat h
  rw [toNat_ofNat_byte, toNat_ofNat_byte] at hxy
  exact UInt8.toNat_inj.mp hxy

theorem latin1_utf8_injective : Function.Injective fun s => latin1 (utf8 s) :=
  latin1_injective.comp utf8_injective

theorem latin1_utf8_of_ascii {s : List Char} (h : Ascii s) : latin1 (utf8 s) = s := by
  induction s with
  | nil => rfl
  | cons c s ih =>
      have hc : c.toNat < 128 := h c (List.mem_cons_self ..)
      have hb : (UInt8.ofNat c.toNat).toNat = c.toNat :=
        UInt8.toNat_ofNat_of_lt' (Nat.lt_trans hc (by decide))
      rw [utf8_cons, latin1_append, ih fun x hx => h x (List.mem_cons_of_mem _ hx),
        utf8EncodeChar_of_ascii hc]
      simp [latin1, hb]

/-- A text that is not ASCII gets longer. -/
theorem latin1_utf8_eq_iff {s : List Char} : latin1 (utf8 s) = s ↔ Ascii s := by
  refine ⟨fun h => ?_, latin1_utf8_of_ascii⟩
  have hlen : (s.map Char.utf8Size).sum = s.length := by
    rw [← length_utf8, ← length_latin1, h]
  clear h
  induction s with
  | nil => exact fun c hc => nomatch hc
  | cons c s ih =>
      have hpos : 1 ≤ c.utf8Size := c.utf8Size_pos
      have hle : s.length ≤ (s.map Char.utf8Size).sum := by
        rw [← length_utf8]
        clear ih hlen
        induction s with
        | nil => exact Nat.le_refl _
        | cons d s ihs =>
            have hd : 1 ≤ d.utf8Size := d.utf8Size_pos
            simp only [utf8_cons, List.length_append, String.length_utf8EncodeChar,
              List.length_cons]
            omega
      simp only [List.map_cons, List.sum_cons, List.length_cons] at hlen
      have hc : c.utf8Size = 1 := by omega
      have hs : Ascii s := ih (by omega)
      have hval : c.toNat < 128 :=
        Nat.lt_succ_of_le (UInt32.le_iff_toNat_le.mp (Char.utf8Size_eq_one_iff.mp hc))
      exact List.forall_mem_cons.mpr ⟨hval, hs⟩

/-! ## Quoting -/

/-- The characters that `urllib.parse.quote` never quotes. -/
def Unreserved (c : Char) : Prop :=
  c.isAlphanum = true ∨ c = '_' ∨ c = '.' ∨ c = '-' ∨ c = '~'

instance (c : Char) : Decidable (Unreserved c) := inferInstanceAs (Decidable (_ ∨ _))

def hexDigit (n : ℕ) : Char := "0123456789ABCDEF".toList.getD n '0'

def hexValue (c : Char) : Option ℕ :=
  if c.isDigit then some (c.toNat - 48)
  else if 65 ≤ c.toNat ∧ c.toNat ≤ 70 then some (c.toNat - 55)
  else if 97 ≤ c.toNat ∧ c.toNat ≤ 102 then some (c.toNat - 87)
  else none

def quoteByte (b : UInt8) : List Char := ['%', hexDigit (b.toNat / 16), hexDigit (b.toNat % 16)]

/-- `urllib.parse.quote(s, safe="")` -/
def quote (s : List Char) : List Char :=
  s.flatMap fun c => if Unreserved c then [c] else (String.utf8EncodeChar c).flatMap quoteByte

def unquoteBytes : List Char → List UInt8
  | '%' :: h :: l :: s =>
      match hexValue h, hexValue l with
      | some x, some y => UInt8.ofNat (16 * x + y) :: unquoteBytes s
      | _, _ => String.utf8EncodeChar '%' ++ unquoteBytes (h :: l :: s)
  | c :: s => String.utf8EncodeChar c ++ unquoteBytes s
  | [] => []

/-- `urllib.parse.unquote(s)`, where the bytes are UTF-8. -/
def unquote (s : List Char) : Option (List Char) := decodeUtf8 (unquoteBytes s)

theorem hexValue_hexDigit : ∀ n < 16, hexValue (hexDigit n) = some n := by decide

theorem hexDigit_ne_slash : ∀ n < 16, hexDigit n ≠ '/' := by decide

theorem unquoteBytes_quoteByte (b : UInt8) (s : List Char) :
    unquoteBytes (quoteByte b ++ s) = b :: unquoteBytes s := by
  have hb : b.toNat < 256 := b.toNat_lt
  have hhi := hexValue_hexDigit (b.toNat / 16) (by omega)
  have hlo := hexValue_hexDigit (b.toNat % 16) (by omega)
  simp only [quoteByte, List.cons_append, List.nil_append, unquoteBytes, hhi, hlo]
  rw [Nat.div_add_mod, UInt8.ofNat_toNat]

theorem unquoteBytes_flatMap_quoteByte (b : List UInt8) (s : List Char) :
    unquoteBytes (b.flatMap quoteByte ++ s) = b ++ unquoteBytes s := by
  induction b with
  | nil => rfl
  | cons x b ih => rw [List.flatMap_cons, List.append_assoc, unquoteBytes_quoteByte, ih]; rfl

theorem unquoteBytes_cons {c : Char} (h : c ≠ '%') (s : List Char) :
    unquoteBytes (c :: s) = String.utf8EncodeChar c ++ unquoteBytes s := by
  rw [unquoteBytes]
  rintro h' l s' rfl
  exact absurd rfl h

theorem unquoteBytes_quote (s : List Char) : unquoteBytes (quote s) = utf8 s := by
  induction s with
  | nil => rfl
  | cons c s ih =>
      rw [quote, List.flatMap_cons, utf8_cons]
      split
      · next hc =>
        have hne : c ≠ '%' := by
          rintro rfl
          exact absurd hc (by decide)
        rw [List.cons_append, List.nil_append, unquoteBytes_cons hne]
        exact congrArg (String.utf8EncodeChar c ++ ·) ih
      · rw [unquoteBytes_flatMap_quoteByte]
        exact congrArg (String.utf8EncodeChar c ++ ·) ih

theorem unquote_quote (s : List Char) : unquote (quote s) = some s := by
  rw [unquote, unquoteBytes_quote, decodeUtf8_utf8]

theorem slash_not_mem_quote (s : List Char) : '/' ∉ quote s := by
  intro h
  obtain ⟨c, -, hc⟩ := List.mem_flatMap.mp h
  split at hc
  · next hun =>
    obtain rfl := List.mem_singleton.mp hc
    exact absurd hun (by decide)
  · obtain ⟨b, -, hb⟩ := List.mem_flatMap.mp hc
    have hlt : b.toNat < 256 := b.toNat_lt
    simp only [quoteByte, List.mem_cons, List.not_mem_nil, or_false] at hb
    rcases hb with hb | hb | hb
    · exact absurd hb (by decide)
    · exact hexDigit_ne_slash _ (by omega) hb.symm
    · exact hexDigit_ne_slash _ (by omega) hb.symm

theorem quote_eq_nil {s : List Char} : quote s = [] ↔ s = [] := by
  refine ⟨fun h => ?_, fun h => congrArg quote h⟩
  cases s with
  | nil => rfl
  | cons c s =>
      have hlen := congrArg List.length (unquoteBytes_quote (c :: s))
      rw [h] at hlen
      have hpos : 1 ≤ c.utf8Size := c.utf8Size_pos
      simp only [unquoteBytes, List.length_nil, utf8_cons, List.length_append,
        String.length_utf8EncodeChar] at hlen
      omega

end Inmanta
