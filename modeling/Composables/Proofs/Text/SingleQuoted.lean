import Composables.Text.Digits
import Mathlib.Data.List.Basic
import Mathlib.Data.List.Chain

/-
  Reading string literals in single quotes. A literal denotes UTF-16 units. A backslash opens an
  escape, which is longer than what it denotes, no line ends inside of a literal, and a quote ends
  it unless a backslash stands in front (`scanned`). So a text between quotes is read as that text
  exactly if it holds none of these signs (`scan_eq_iff`).
-/

namespace Composables.SingleQuoted

/-! ## Units -/

/-- The UTF-16 units of a code point: itself, or the two halves of a surrogate pair. -/
def unitsOf (n : Nat) : List Nat :=
  if n < 0x10000 then [n] else [0xD800 + (n - 0x10000) / 0x400, 0xDC00 + (n - 0x10000) % 0x400]

def units (cs : List Char) : List Nat := cs.flatMap fun c => unitsOf c.toNat

theorem units_append (cs ds : List Char) : units (cs ++ ds) = units cs ++ units ds :=
  List.flatMap_append

theorem units_cons (c : Char) (cs : List Char) : units (c :: cs) = unitsOf c.toNat ++ units cs :=
  List.flatMap_cons

theorem one_le_length_unitsOf (n : Nat) : 1 ≤ (unitsOf n).length := by
  unfold unitsOf
  split <;> simp

theorem length_unitsOf_le (n : Nat) : (unitsOf n).length ≤ 2 := by
  unfold unitsOf
  split <;> simp

theorem length_le_length_units (cs : List Char) : cs.length ≤ (units cs).length := by
  induction cs with
  | nil => exact Nat.le_refl 0
  | cons c cs ih =>
      have := one_le_length_unitsOf c.toNat
      rw [units_cons, List.length_append, List.length_cons]
      omega

/-! ## Scanning -/

/-- A sign that stands for itself in a literal. -/
def IsPlain (c : Char) : Prop := c ∉ ['\'', '\\', '\n', '\r']

instance : DecidablePred IsPlain := fun _ => inferInstanceAs (Decidable (¬ _))

/-- A text of signs that stand for themselves. -/
def Plain (s : String) : Prop := ∀ c ∈ s.toList, IsPlain c

instance (s : String) : Decidable (Plain s) := List.decidableBAll IsPlain s.toList

/-- What a sign denotes behind a backslash: most signs themselves, some letters a control character,
and a line end nothing. Digits and the letters that open codes denote nothing alone. -/
def escaped? : Char → Option (List Nat)
  | 'b' => some [0x08]
  | 't' => some [0x09]
  | 'n' => some [0x0A]
  | 'v' => some [0x0B]
  | 'f' => some [0x0C]
  | 'r' => some [0x0D]
  | 'x' => none
  | 'u' => none
  | '\n' => some []
  | '\r' => some []
  | '\u2028' => some []
  | '\u2029' => some []
  | c => if c.isDigit then none else some (unitsOf c.toNat)

/-- Puts units in front of those of a literal. -/
def putUnits (us : List Nat) : List Nat × List Char → List Nat × List Char := Prod.map (us ++ ·) id

mutual

/-- The units up to the closing quote of a literal, and what stands behind it. -/
def scan : List Char → Option (List Nat × List Char)
  | [] => none
  | '\'' :: cs => some ([], cs)
  | '\\' :: cs => scanEscape cs
  | c :: cs => if c = '\n' ∨ c = '\r' then none else (scan cs).map (putUnits (unitsOf c.toNat))

/-- Goes on behind a backslash. A zero that no digit follows denotes the null character, and codes
are written by two digits, by four, or by any number of them in braces. -/
def scanEscape : List Char → Option (List Nat × List Char)
  | [] => none
  | '\r' :: '\n' :: cs => scan cs
  | '0' :: cs => if cs.head?.any Char.isDigit then none else (scan cs).map (putUnits [0])
  | 'x' :: a :: b :: cs => (Text.hexValue? [a, b]).bind fun n => (scan cs).map (putUnits [n])
  | 'u' :: '\x7b' :: cs => scanCodePoint none cs
  | 'u' :: a :: b :: c :: d :: cs =>
    (Text.hexValue? [a, b, c, d]).bind fun n => (scan cs).map (putUnits [n])
  | c :: cs => (escaped? c).bind fun us => (scan cs).map (putUnits us)

/-- Goes on inside of the braces of a code, of which some digits may have been read. -/
def scanCodePoint (code? : Option Nat) : List Char → Option (List Nat × List Char)
  | [] => none
  | '\x7d' :: cs =>
    code?.bind fun n => if n ≤ 0x10FFFF then (scan cs).map (putUnits (unitsOf n)) else none
  | c :: cs => (Text.hexDigit? c).bind fun d => scanCodePoint (some (16 * code?.getD 0 + d)) cs

end

theorem scan_plain {c : Char} {cs : List Char} (hquote : c ≠ '\'') (hescape : c ≠ '\\')
    (hline : ¬ (c = '\n' ∨ c = '\r')) :
    scan (c :: cs) = (scan cs).map (putUnits (unitsOf c.toNat)) := by
  rw [scan, if_neg hline]
  · exact hquote
  · exact hescape

variable {cs body front rest : List Char} {us us' : List Nat} {margin margin' : Int}

theorem map_putUnits_eq_some {x : Option (List Nat × List Char)} :
    x.map (putUnits us') = some (us, rest) ↔ ∃ us₀, x = some (us₀, rest) ∧ us' ++ us₀ = us := by
  rw [Option.map_eq_some_iff]
  constructor
  · rintro ⟨⟨us₀, rest₀⟩, hx, heq⟩
    obtain ⟨hus, rfl⟩ := Prod.mk.inj heq
    exact ⟨us₀, hx, hus⟩
  · rintro ⟨us₀, hx, rfl⟩
    exact ⟨(us₀, rest), hx, rfl⟩

theorem length_escaped? {c : Char} (h : escaped? c = some us) :
    us.length ≤ (unitsOf c.toNat).length := by
  have hone := one_le_length_unitsOf c.toNat
  unfold escaped? at h
  split at h
  case h_7 | h_8 => cases h
  case h_13 =>
    split at h
    · cases h
    · rw [← Option.some.inj h]
  all_goals
    rw [← Option.some.inj h]
    exact Nat.le_trans (by decide) hone

theorem isSome_of_hexValue? {ds : List Char} {n : Nat} (h : Text.hexValue? ds = some n) :
    ∀ c ∈ ds, (Text.hexDigit? c).isSome := by
  have hfrom : ∀ k, ds.foldlM (fun n c => (Text.hexDigit? c).map (16 * n + ·)) k = some n →
      ∀ c ∈ ds, (Text.hexDigit? c).isSome := by
    clear h
    induction ds with
    | nil => exact fun _ _ c hc => absurd hc List.not_mem_nil
    | cons d ds ih =>
        intro k h
        rw [List.foldlM_cons] at h
        obtain ⟨_, hd, h⟩ := Option.bind_eq_some_iff.mp h
        obtain ⟨v, hv, _⟩ := Option.map_eq_some_iff.mp hd
        exact List.forall_mem_cons.mpr ⟨Option.isSome_of_eq_some hv, ih _ h⟩
  exact hfrom 0 h

theorem quote_not_mem_of_hexValue? {ds : List Char} {n : Nat} (h : Text.hexValue? ds = some n) :
    '\'' ∉ ds := by
  intro hmem
  have := isSome_of_hexValue? h _ hmem
  revert this
  decide

/-! ## Bodies of literals -/

/-- Whether a sign of a literal can stand behind another: a quote only behind a backslash. -/
def Guarded (c d : Char) : Prop := d = '\'' → c = '\\'

/-- Text that begins inside of a literal is read up to the closing quote. All quotes in front of
that one are guarded, whatever comes in front of the body, and the body has at least `margin` units
more than it denotes. -/
structure Reads (margin : Int) (cs : List Char) (us : List Nat) (body rest : List Char) : Prop where
  split : cs = body ++ '\'' :: rest
  guarded : ∀ c, (c :: body).IsChain Guarded
  length : us.length + margin ≤ (units body).length

theorem Reads.put (h : Reads margin cs us body rest) (front : List Char) (us' : List Nat)
    (hfront : ∀ c, (c :: front).IsChain Guarded)
    (hlength : us'.length + margin' ≤ (units front).length + margin) :
    Reads margin' (front ++ cs) (us' ++ us) (front ++ body) rest := by
  constructor
  case split => rw [h.split, List.append_assoc]
  case guarded =>
    intro c
    rw [← List.cons_append]
    refine List.isChain_append.mpr ⟨hfront c, (h.guarded c).of_cons, fun d _ e he => ?_⟩
    obtain ⟨body', rfl⟩ := List.head?_eq_some_iff.mp he
    exact (List.isChain_cons_cons.mp (h.guarded d)).1
  case length =>
    have := h.length
    rw [units_append, List.length_append, List.length_append]
    push_cast
    omega

theorem guarded_of_not_mem (h : '\'' ∉ front) (c : Char) : (c :: front).IsChain Guarded := by
  induction front generalizing c with
  | nil => exact List.isChain_singleton c
  | cons d front ih =>
      rw [List.mem_cons, not_or] at h
      exact List.isChain_cons_cons.mpr ⟨fun hd => absurd hd.symm h.1, ih h.2 d⟩

namespace Reads

variable {c : Char} {n : Nat}

theorem mono (h : Reads margin cs us body rest) (hmargin : margin' ≤ margin) :
    Reads margin' cs us body rest :=
  ⟨h.split, h.guarded, by have := h.length; omega⟩

theorem plain (h : Reads 0 cs us body rest) (hc : c ≠ '\'') :
    Reads 0 (c :: cs) (unitsOf c.toNat ++ us) (c :: body) rest :=
  h.put [c] _ (guarded_of_not_mem (by simpa using hc.symm)) (by simp [units])

/-- A backslash may come with a quote behind it, but with none behind that. -/
theorem escape (h : Reads margin cs us body rest) (c : Char) (front : List Char) (us' : List Nat)
    (hfront : '\'' ∉ front) (hlength : us'.length ≤ (units (c :: front)).length + margin) :
    Reads 1 ('\\' :: c :: (front ++ cs)) (us' ++ us) ('\\' :: c :: (front ++ body)) rest := by
  refine h.put ('\\' :: c :: front) us' (fun d => ?_) ?_
  · exact List.isChain_cons_cons.mpr ⟨fun hd => absurd hd (by decide),
      List.isChain_cons_cons.mpr ⟨fun _ => rfl, guarded_of_not_mem hfront c⟩⟩
  · have hone : (units ('\\' :: c :: front)).length = (units (c :: front)).length + 1 := by
      rw [units_cons, List.length_append, Nat.add_comm]
      rfl
    omega

/-- A code of digits denotes one unit. -/
theorem code {ds : List Char} (h : Reads 0 cs us body rest) (c : Char)
    (hn : Text.hexValue? ds = some n) :
    Reads 1 ('\\' :: c :: (ds ++ cs)) (n :: us) ('\\' :: c :: (ds ++ body)) rest := by
  have hlength := length_le_length_units (c :: ds)
  refine h.escape c ds [n] (quote_not_mem_of_hexValue? hn) ?_
  rw [List.length_cons] at hlength
  rw [List.length_singleton]
  omega

end Reads

/-! ## What is scanned -/

/-- If a text is scanned, it begins with the body of a literal; only a body of plain signs has no
more units than it denotes. -/
def Scanned (rest cs : List Char) : Prop :=
  ∀ us, scan cs = some (us, rest) → ∃ body, Reads 0 cs us body rest ∧
    (us.length = (units body).length → ∀ c ∈ body, IsPlain c)

def ScannedEscape (rest cs : List Char) : Prop :=
  ∀ us, scanEscape cs = some (us, rest) → ∃ body, Reads 1 ('\\' :: cs) us ('\\' :: body) rest

def ScannedCodePoint (rest : List Char) (code? : Option Nat) (cs : List Char) : Prop :=
  ∀ us, scanCodePoint code? cs = some (us, rest) → ∃ body, Reads (-1) cs us body rest

theorem Scanned.exists_reads (h : Scanned rest cs)
    (hus : (scan cs).map (putUnits us') = some (us, rest)) :
    ∃ us₀ body, us' ++ us₀ = us ∧ Reads 0 cs us₀ body rest := by
  obtain ⟨us₀, hus₀, rfl⟩ := map_putUnits_eq_some.mp hus
  obtain ⟨body, hbody, _⟩ := h us₀ hus₀
  exact ⟨us₀, body, rfl, hbody⟩

theorem scanned_plain {c : Char} (hquote : c ≠ '\'') (hescape : c ≠ '\\')
    (hline : ¬ (c = '\n' ∨ c = '\r')) (ih : Scanned rest cs) : Scanned rest (c :: cs) := by
  intro us h
  rw [scan_plain hquote hescape hline] at h
  obtain ⟨us, hus, rfl⟩ := map_putUnits_eq_some.mp h
  obtain ⟨body, hbody, hplain⟩ := ih us hus
  refine ⟨c :: body, hbody.plain hquote, fun heq => ?_⟩
  rw [units_cons, List.length_append, List.length_append] at heq
  rw [not_or] at hline
  refine List.forall_mem_cons.mpr ⟨?_, hplain (by omega)⟩
  simpa [IsPlain] using ⟨hquote, hescape, hline⟩

theorem scanned_escape (ih : ScannedEscape rest cs) : Scanned rest ('\\' :: cs) := by
  intro us h
  obtain ⟨body, hbody⟩ := ih us h
  refine ⟨'\\' :: body, hbody.mono (by decide), fun heq => ?_⟩
  have := hbody.length
  omega

theorem scannedEscape_lineEnd (ih : Scanned rest cs) : ScannedEscape rest ('\r' :: '\n' :: cs) := by
  intro us h
  obtain ⟨body, hbody, _⟩ := ih us h
  exact ⟨_, hbody.escape '\r' ['\n'] [] (by decide) (by simp)⟩

theorem scannedEscape_null (hdigit : ¬ cs.head?.any Char.isDigit) (ih : Scanned rest cs) :
    ScannedEscape rest ('0' :: cs) := by
  intro us h
  rw [scanEscape, if_neg hdigit] at h
  obtain ⟨us, body, rfl, hbody⟩ := ih.exists_reads h
  exact ⟨_, hbody.escape '0' [] [0] (by simp) (by decide)⟩

theorem scannedEscape_code {c : Char} (ds : List Char)
    (heq : scanEscape (c :: (ds ++ cs)) =
      (Text.hexValue? ds).bind fun n => (scan cs).map (putUnits [n]))
    (ih : Scanned rest cs) : ScannedEscape rest (c :: (ds ++ cs)) := by
  intro us h
  rw [heq] at h
  obtain ⟨n, hn, h⟩ := Option.bind_eq_some_iff.mp h
  obtain ⟨us, body, rfl, hbody⟩ := ih.exists_reads h
  exact ⟨_, hbody.code c hn⟩

theorem scannedEscape_braces (ih : ScannedCodePoint rest none cs) :
    ScannedEscape rest ('u' :: '\x7b' :: cs) := by
  intro us h
  obtain ⟨body, hbody⟩ := ih us h
  exact ⟨_, hbody.escape 'u' ['\x7b'] [] (by decide) (by decide)⟩

theorem scannedEscape_sign {c : Char}
    (heq : scanEscape (c :: cs) = (escaped? c).bind fun us => (scan cs).map (putUnits us))
    (ih : Scanned rest cs) : ScannedEscape rest (c :: cs) := by
  intro us h
  rw [heq] at h
  obtain ⟨us', hus', h⟩ := Option.bind_eq_some_iff.mp h
  obtain ⟨us, body, rfl, hbody⟩ := ih.exists_reads h
  have hlength := length_escaped? hus'
  exact ⟨_, hbody.escape c [] us' (by simp) (by simpa [units] using hlength)⟩

/-- The closing brace makes up for the second half of a surrogate pair. -/
theorem scannedCodePoint_close {code? : Option Nat} (ih : Scanned rest cs) :
    ScannedCodePoint rest code? ('\x7d' :: cs) := by
  intro us h
  rw [scanCodePoint] at h
  obtain ⟨n, _, h⟩ := Option.bind_eq_some_iff.mp h
  split at h
  · obtain ⟨us, body, rfl, hbody⟩ := ih.exists_reads h
    have hlength := length_unitsOf_le n
    have hone : (units ['\x7d']).length = 1 := rfl
    exact ⟨_, hbody.put ['\x7d'] _ (guarded_of_not_mem (by decide)) (by omega)⟩
  · cases h

theorem scannedCodePoint_digit {code? : Option Nat} {c : Char} (hend : c ≠ '\x7d')
    (ih : ∀ d, ScannedCodePoint rest (some (16 * code?.getD 0 + d)) cs) :
    ScannedCodePoint rest code? (c :: cs) := by
  intro us h
  rw [scanCodePoint] at h
  · obtain ⟨d, hd, h⟩ := Option.bind_eq_some_iff.mp h
    obtain ⟨body, hbody⟩ := ih d us h
    have hquote : c ≠ '\'' := by
      rintro rfl
      cases hd
    have hlength : ([] : List Nat).length ≤ (units [c]).length := Nat.zero_le _
    exact ⟨_, hbody.put [c] [] (guarded_of_not_mem (by simpa using hquote.symm)) (by omega)⟩
  · exact hend

theorem scanned (rest : List Char) : (∀ cs, Scanned rest cs) ∧ (∀ cs, ScannedEscape rest cs) ∧
    ∀ code? cs, ScannedCodePoint rest code? cs := by
  apply scan.mutual_induct (Scanned rest) (ScannedEscape rest) (ScannedCodePoint rest)
  -- inside of the literal: its end, a quote, a backslash, a line end, any other sign
  case case1 => exact nofun
  case case2 =>
    intro cs us h
    obtain ⟨rfl, rfl⟩ := Prod.mk.inj (Option.some.inj h)
    exact ⟨[], ⟨rfl, fun c => List.isChain_singleton c, by simp⟩, fun _ _ => nofun⟩
  case case3 => exact fun cs ih => scanned_escape ih
  case case4 =>
    intro c cs hquote hescape hline us h
    rw [scan, if_pos hline] at h
    · cases h
    · exact hquote
    · exact hescape
  case case5 => exact fun c cs hquote hescape hline ih => scanned_plain hquote hescape hline ih
  -- behind a backslash
  case case6 => exact nofun
  case case7 => exact fun cs ih => scannedEscape_lineEnd ih
  case case8 =>
    intro cs hdigit us h
    rw [scanEscape, if_pos hdigit] at h
    cases h
  case case9 => exact fun cs hdigit ih => scannedEscape_null hdigit ih
  case case10 =>
    intro a b cs ih
    refine scannedEscape_code [a, b] ?_ ih
    rw [List.cons_append, List.cons_append, List.nil_append, scanEscape]
  case case11 => exact fun cs ih => scannedEscape_braces ih
  case case12 =>
    intro a b c d cs hbrace ih
    refine scannedEscape_code [a, b, c, d] ?_ ih
    rw [List.cons_append, List.cons_append, List.cons_append, List.cons_append, List.nil_append,
      scanEscape]
    exact hbrace
  case case13 =>
    intro c cs hfeed hzero hbyte hopen hcode ih
    refine scannedEscape_sign ?_ ih
    rw [scanEscape]
    all_goals assumption
  -- inside of the braces of a code
  case case14 => exact fun _ => nofun
  case case15 => exact fun code? cs ih => scannedCodePoint_close ih
  case case16 => exact fun code? c cs hend ih => scannedCodePoint_digit hend ih

/-! ## Texts between quotes -/

theorem scan_append (h : ∀ c ∈ body, IsPlain c) (rest : List Char) :
    scan (body ++ '\'' :: rest) = some (units body, rest) := by
  induction body with
  | nil => rfl
  | cons c body ih =>
      obtain ⟨hc, hbody⟩ := List.forall_mem_cons.mp h
      simp only [IsPlain, List.mem_cons, List.not_mem_nil, or_false, not_or] at hc
      obtain ⟨hquote, hescape, hline⟩ := hc
      rw [List.cons_append, scan_plain hquote hescape (not_or.mpr hline), ih hbody]
      rfl

/-- A text in quotes is read as itself exactly if it holds plain signs only. -/
theorem scan_eq_iff {s : String} :
    scan (s.toList ++ '\'' :: rest) = some (units s.toList, rest) ↔ Plain s := by
  refine ⟨fun h => ?_, fun h => scan_append h rest⟩
  obtain ⟨body, hbody, hplain⟩ := (scanned rest).1 _ _ h
  obtain rfl : s.toList = body := List.append_cancel_right hbody.split
  exact hplain rfl

/-- With a backslash in front, a quote is denoted and does not end the literal. -/
example : scan "let\\'s';".toList = some (units "let's".toList, [';']) := by decide +kernel

/-- A literal ends with the first quote that no backslash guards, if not before. -/
theorem length_le_of_scan {c : Char} (hc : c ≠ '\\') {cs' : List Char}
    (h : scan (cs ++ c :: '\'' :: cs') = some (us, rest)) : cs'.length ≤ rest.length := by
  obtain ⟨body, hbody, _⟩ := (scanned rest).1 _ _ h
  have hsplit : (cs ++ [c]) ++ '\'' :: cs' = body ++ '\'' :: rest := by
    rw [← hbody.split, List.append_assoc]
    rfl
  rcases List.append_eq_append_iff.mp hsplit with ⟨more, hbody', hrest⟩ | ⟨more, hfront, hrest⟩
  · cases more with
    | nil =>
        rw [(List.cons.inj hrest).2]
    | cons d more =>
        obtain ⟨rfl, rfl⟩ := List.cons.inj hrest
        have hguarded := hbody.guarded c
        rw [hbody', List.append_assoc, List.singleton_append, ← List.cons_append] at hguarded
        exact absurd ((List.isChain_append_cons_cons.mp hguarded).2.1 rfl) hc
  · have := congrArg List.length hrest
    simp only [List.length_cons, List.length_append] at this
    omega

end Composables.SingleQuoted
