import Composables.Proofs.Graphql.Numeral
import Composables.Proofs.Graphql.Reread
import Composables.Proofs.Graphql.Scan

/-
  Printed literals as pieces of a text: each is cut off as one token, which `Reader.reading` gives.
-/

namespace Composables.Graphql

open Decimal (Binary64)

variable {r : Reader}

/-! ## Numbers -/

theorem mem_digits {c : Char} (h : c.isDigit) :
    c ∈ ['0', '1', '2', '3', '4', '5', '6', '7', '8', '9'] := by
  have hrange := Char.isDigit_iff_toNat.mp h
  have hlow : 48 ≤ c.toNat := hrange.1
  have hhigh : c.toNat ≤ 57 := hrange.2
  have hofNat := Char.ofNat_toNat c
  generalize c.toNat = n at hlow hhigh hofNat
  subst hofNat
  interval_cases n <;> decide

/-- A digit or a sign, and behind it nothing that ends a number. -/
def IsNumberText (cs : List Char) : Prop :=
  ∃ c ds, cs = c :: ds ∧ Token.isNumberStart c ∧ ∀ d ∈ ds, Token.endsNumber d = false

theorem readsOpen_number {s : String} (h : IsNumberText s.toList) :
    ReadsOpen r s [r.number s.toList] := by
  intro rest us hrest hscan
  obtain ⟨c, ds, hs, hstart, hds⟩ := h
  have htail : ∀ d ∈ ds, (!Token.endsNumber d) = true := fun d hd => by rw [hds d hd]; rfl
  obtain ⟨htake, hdrop⟩ := takeWhile_break htail (fun _ h => by rw [h]; rfl) hrest
  have hmem : c ∈ ['-', '0', '1', '2', '3', '4', '5', '6', '7', '8', '9'] := by
    simp only [Token.isNumberStart, Bool.or_eq_true, beq_iff_eq] at hstart
    rcases hstart with h | rfl
    · exact List.mem_cons_of_mem _ (mem_digits h)
    · exact List.mem_cons_self
  have hall : ['-', '0', '1', '2', '3', '4', '5', '6', '7', '8', '9'].all (fun d =>
      !Token.isSpace d && d != '#' && d != '.' && d != '"' && !Token.isSymbol d &&
        !Token.isNameStart d) = true := by decide
  have hc := List.all_eq_true.mp hall c hmem
  simp only [Bool.and_eq_true, Bool.not_eq_true', bne_iff_ne] at hc
  obtain ⟨⟨⟨⟨⟨hspace, hcomment⟩, hdot⟩, hquote⟩, hsymbol⟩, hname⟩ := hc
  rw [hs, List.cons_append]
  refine hscan.token ⟨hspace, hcomment⟩ ?_
  rw [cut?_cons hdot hquote, hsymbol, if_neg (by decide), hname, if_neg (by decide), if_pos hstart,
    htake, hdrop]

theorem endsNumber_of_mem {cs : List Char} (h : ∀ c ∈ cs, c.isDigit ∨ c = '.' ∨ c = '-') :
    ∀ c ∈ cs, Token.endsNumber c = false := by
  have hall : ['.', '-', '0', '1', '2', '3', '4', '5', '6', '7', '8', '9'].all
      (fun d => !Token.endsNumber d) = true := by decide
  intro c hc
  have hmem : c ∈ ['.', '-', '0', '1', '2', '3', '4', '5', '6', '7', '8', '9'] := by
    rcases h c hc with h | rfl | rfl
    · exact List.mem_cons_of_mem _ (List.mem_cons_of_mem _ (mem_digits h))
    · decide
    · decide
  simpa using List.all_eq_true.mp hall c hmem

theorem isNumberText_sign {negative : Bool} {c : Char} {ds : List Char} (hc : c.isDigit)
    (hds : ∀ d ∈ ds, d.isDigit ∨ d = '.') : IsNumberText (Numeral.sign negative ++ c :: ds) := by
  cases negative with
  | true =>
      refine ⟨'-', c :: ds, rfl, rfl, endsNumber_of_mem fun d hd => ?_⟩
      rcases List.mem_cons.mp hd with rfl | hd
      · exact .inl hc
      · exact (hds d hd).imp_right .inl
  | false =>
      refine ⟨c, ds, rfl, ?_, endsNumber_of_mem fun d hd => (hds d hd).imp_right .inl⟩
      rw [Token.isNumberStart, hc]
      rfl

theorem isNumberText_int (n : ℤ) : IsNumberText (toString n).toList := by
  obtain ⟨c, ds, hds⟩ := List.exists_cons_of_ne_nil (Nat.toDigits_ne_nil (n := n.natAbs) (b := 10))
  have hall := Text.all_isDigit_toDigits n.natAbs
  rw [hds, List.forall_mem_cons] at hall
  rw [Numeral.toList_int, hds]
  exact isNumberText_sign hall.1 fun d hd => .inl (hall.2 d hd)

theorem isNumberText_float {x : Binary64} (hn : x.Normal) (hx : x ≠ .infinite false) :
    IsNumberText (printedFloat.render x).toList := by
  cases x with
  | infinite negative =>
      cases negative with
      | false => exact absurd rfl hx
      | true =>
          refine ⟨'-', ['i', 'n', 'f'], rfl, rfl, fun d hd => ?_⟩
          have hall : ['i', 'n', 'f'].all (fun d => !Token.endsNumber d) = true := by decide
          simpa using List.all_eq_true.mp hall d hd
  | finite negative m q =>
      by_cases hwhole : Decimal.IsWhole m q
      · obtain ⟨ds, hds, hne, htext⟩ := toList_render_whole negative hn hwhole
        obtain ⟨c, ds, rfl⟩ := List.exists_cons_of_ne_nil hne
        rw [List.forall_mem_cons] at hds
        rw [htext]
        exact isNumberText_sign hds.1 fun d hd => .inl (hds.2 d hd)
      · obtain ⟨whole, fraction, hdigits, hne, htext, _⟩ :=
          toList_render_fraction negative hn hwhole
        obtain ⟨c, whole, rfl⟩ := List.exists_cons_of_ne_nil hne
        rw [List.cons_append, List.forall_mem_cons, List.forall_mem_append] at hdigits
        rw [htext, List.cons_append]
        refine isNumberText_sign hdigits.1 fun d hd => ?_
        rcases List.mem_append.mp hd with hd | hd
        · exact .inl (hdigits.2.1 d hd)
        · exact (List.mem_cons.mp hd).symm.imp_left (hdigits.2.2 d)

/-! ## Strings in quotes -/

theorem cutQuoted?_append (ds : List Char) (h : ∀ c ∈ ds, c ≠ '"' ∧ c ≠ '\\' ∧ c ≠ '\n')
    (cs : List Char) :
    Token.cutQuoted? (ds ++ cs) = (Token.cutQuoted? cs).map fun b => (ds ++ b.1, b.2) := by
  induction ds with
  | nil => simp
  | cons c ds ih =>
      rw [List.forall_mem_cons] at h
      obtain ⟨⟨hquote, hescape, hfeed⟩, hds⟩ := h
      rw [List.cons_append, Token.cutQuoted?, ih hds, Option.map_map]
      · rfl
      · exact hquote
      · exact hfeed
      · exact fun _ _ hc => absurd hc hescape

theorem cutQuoted?_escape {c : Char} (hc : c ≠ '\n') (cs : List Char) :
    Token.cutQuoted? ('\\' :: c :: cs) =
      (Token.cutQuoted? cs).map fun b => ('\\' :: c :: b.1, b.2) := by
  rw [Token.cutQuoted?, if_neg hc]

theorem cutQuoted?_escapeChar (c : Char) (cs : List Char) :
    Token.cutQuoted? (StringLiteral.escapeChar c ++ cs) =
      (Token.cutQuoted? cs).map fun b => (StringLiteral.escapeChar c ++ b.1, b.2) := by
  unfold StringLiteral.escapeChar
  split
  · exact cutQuoted?_escape (by decide) cs
  · exact cutQuoted?_escape (by decide) cs
  · exact cutQuoted?_escape (by decide) cs
  · exact cutQuoted?_escape (by decide) cs
  · exact cutQuoted?_escape (by decide) cs
  · rename_i hreturn hfeed htab hquote hescape
    split
    · exact cutQuoted?_append [c] (by simpa using ⟨hquote, hescape, hfeed⟩) cs
    · have hdigits : ∀ d ∈ StringLiteral.paddedDigits c.toNat, d ≠ '"' ∧ d ≠ '\\' ∧ d ≠ '\n' := by
        intro d hd
        have hdigit : d.isDigit := by
          rcases List.mem_append.mp hd with hd | hd
          · exact Text.all_isDigit_zeros _ d hd
          · rw [Decimal.toList_toString] at hd
            exact Text.all_isDigit_toDigits _ d hd
        have hall : ['0', '1', '2', '3', '4', '5', '6', '7', '8', '9'].all
            (fun d => d != '"' && d != '\\' && d != '\n') = true := by decide
        simpa [and_assoc] using List.all_eq_true.mp hall d (mem_digits hdigit)
      rw [List.cons_append, List.cons_append, cutQuoted?_escape (by decide),
        cutQuoted?_append _ hdigits, Option.map_map]
      rfl

/-- A string is cut at its closing quote. -/
theorem cutQuoted?_encode (cs rest : List Char) :
    Token.cutQuoted? (StringLiteral.encode cs ++ '"' :: rest) =
      some (StringLiteral.encode cs, rest) := by
  induction cs with
  | nil => rw [StringLiteral.encode, List.flatMap_nil, List.nil_append, Token.cutQuoted?]
  | cons c cs ih =>
      rw [StringLiteral.encode, List.flatMap_cons, ← StringLiteral.encode, List.append_assoc,
        cutQuoted?_escapeChar, ih]
      rfl

/-- What is in quotes does not begin with a quote. -/
theorem head?_encode (cs : List Char) : (StringLiteral.encode cs).head? ≠ some '"' := by
  cases cs with
  | nil => simp [StringLiteral.encode]
  | cons c cs =>
      rw [StringLiteral.encode, List.flatMap_cons]
      unfold StringLiteral.escapeChar
      split
      · simp
      · simp
      · simp
      · simp
      · simp
      · rename_i hquote _
        split
        · simpa using hquote
        · simp

theorem readsOpen_quoted (cs : List Char) :
    ReadsOpen r ("\"" ++ String.ofList (StringLiteral.encode cs) ++ "\"")
      [r.quoted (StringLiteral.encode cs)] := by
  intro rest us hrest hscan
  have htext : ("\"" ++ String.ofList (StringLiteral.encode cs) ++ "\"").toList ++ rest =
      '"' :: (StringLiteral.encode cs ++ '"' :: rest) := by
    simp
  have hblock : ∀ cs', StringLiteral.encode cs ++ '"' :: rest = '"' :: '"' :: cs' → False := by
    intro cs' heq
    cases hcs : StringLiteral.encode cs with
    | nil =>
        rw [hcs, List.nil_append] at heq
        have hend := hrest '"' (by rw [(List.cons.inj heq).2]; rfl)
        cases hend
    | cons c ds =>
        have hhead := head?_encode cs
        rw [hcs] at heq hhead
        exact hhead (congrArg some (List.cons.inj heq).1)
  rw [htext]
  refine hscan.token ⟨by decide, by decide⟩ ?_
  rw [Reader.cut?, cutQuoted?_encode]
  · rfl
  · exact hblock

/-! ## Block strings -/

/-- A part of a block string that its closing quotes are not looked for in. -/
def Passes (cs : List Char) : Prop :=
  ∀ rest, Token.cutBlock? (cs ++ rest) = (Token.cutBlock? rest).map fun b => (cs ++ b.1, b.2)

theorem Passes.append {cs ds : List Char} (hcs : Passes cs) (hds : Passes ds) :
    Passes (cs ++ ds) := by
  intro rest
  rw [List.append_assoc, hcs, hds, Option.map_map]
  simp only [Function.comp_def, List.append_assoc]

theorem passes_nil : Passes [] := fun rest => by simp

theorem passes_cons {c : Char} (hquote : c ≠ '"') (hescape : c ≠ '\\') : Passes [c] := by
  intro rest
  rw [List.singleton_append, Token.cutBlock?]
  · rfl
  · exact fun _ hc => absurd hc hquote
  · exact fun _ hc => absurd hc hescape

theorem passes_spaces (n : Nat) : Passes (List.replicate n ' ') := by
  induction n with
  | zero => exact passes_nil
  | succ n ih => exact (passes_cons (by decide) (by decide)).append ih

/-- What stands between the triple quotes of a text that is written as a block. -/
def BlockString.inner (indent : Nat) (cs : List Char) : List Char :=
  '\n' :: (((Text.lines cs).flatMap fun l =>
    if isBlankLine l then ['\n']
    else List.replicate (indent + 2) ' ' ++ escapeQuotes l ++ ['\n']) ++ List.replicate indent ' ')

theorem BlockString.encode_eq (indent : Nat) (cs : List Char) :
    encode indent cs = tripleQuotes ++ (inner indent cs ++ tripleQuotes) := by
  simp [encode, inner, tripleQuotes]

/-- A quote at the front of a line with its quotes escaped stands there in the line itself. -/
theorem escapeQuotes_eq_cons {cs rest after : List Char}
    (h : BlockString.escapeQuotes cs ++ '\n' :: rest = '"' :: after) :
    ∃ cs', cs = '"' :: cs' ∧ BlockString.escapeQuotes cs' ++ '\n' :: rest = after ∧
      ∀ cs'', cs' ≠ '"' :: '"' :: cs'' := by
  unfold BlockString.escapeQuotes at h
  split at h
  · simp at h
  · rename_i hother
    obtain ⟨rfl, hafter⟩ := List.cons.inj h
    exact ⟨_, rfl, hafter, fun cs'' hcs => hother cs'' rfl hcs⟩
  · simp at h

theorem escapeQuotes_ne_quotes (cs rest after : List Char) :
    BlockString.escapeQuotes cs ++ '\n' :: rest ≠ '"' :: '"' :: '"' :: after := by
  intro h
  obtain ⟨cs₁, rfl, h₁, hother⟩ := escapeQuotes_eq_cons h
  obtain ⟨cs₂, rfl, h₂, _⟩ := escapeQuotes_eq_cons h₁
  obtain ⟨cs₃, rfl, _, _⟩ := escapeQuotes_eq_cons h₂
  exact hother cs₃ rfl

theorem passes_line (l : List Char) : Passes (BlockString.escapeQuotes l ++ ['\n']) := by
  intro rest
  rw [List.append_assoc, List.singleton_append]
  have hnewline := passes_cons (c := '\n') (by decide) (by decide) rest
  induction l using BlockString.escapeQuotes.induct with
  | case1 l ih =>
      rw [BlockString.escapeQuotes, List.cons_append, List.cons_append, List.cons_append,
        List.cons_append, Token.cutBlock?, ih, Option.map_map]
      rfl
  | case2 c l hother ih =>
      rw [BlockString.escapeQuotes]
      · rw [List.cons_append, Token.cutBlock?, ih, Option.map_map]
        · rfl
        · intro after hc h
          obtain ⟨l₁, rfl, h₁, _⟩ := escapeQuotes_eq_cons h
          obtain ⟨l₂, rfl, _, _⟩ := escapeQuotes_eq_cons h₁
          exact hother l₂ hc rfl
        · exact fun after _ h => escapeQuotes_ne_quotes _ _ after h
      · exact hother
  | case3 => exact hnewline

theorem passes_inner (indent : Nat) (cs : List Char) : Passes (BlockString.inner indent cs) := by
  have hlines : ∀ ls : List (List Char), Passes (ls.flatMap fun l =>
      if BlockString.isBlankLine l then ['\n']
      else List.replicate (indent + 2) ' ' ++ BlockString.escapeQuotes l ++ ['\n']) := by
    intro ls
    induction ls with
    | nil => exact passes_nil
    | cons l ls ih =>
        refine Passes.append ?_ ih
        beta_reduce
        split
        · exact passes_cons (by decide) (by decide)
        · rw [List.append_assoc]
          exact (passes_spaces _).append (passes_line l)
  exact ((passes_cons (c := '\n') (by decide) (by decide)).append (hlines _)).append
    (passes_spaces _)

theorem reads_block (indent : Nat) (cs : List Char) :
    Reads r (String.ofList (BlockString.encode indent cs))
      [r.block (BlockString.inner indent cs)] := by
  intro rest us hscan
  have hcut : Token.cutBlock? (BlockString.inner indent cs ++ (tripleQuotes ++ rest)) =
      some (BlockString.inner indent cs, rest) := by
    rw [passes_inner, tripleQuotes, List.cons_append, List.cons_append, List.cons_append,
      Token.cutBlock?]
    simp
  rw [String.toList_ofList, BlockString.encode_eq, List.append_assoc, List.append_assoc]
  refine hscan.token ⟨by decide, by decide⟩ ?_
  show r.cut? ('"' :: '"' :: '"' :: (BlockString.inner indent cs ++ (tripleQuotes ++ rest))) = _
  rw [Reader.cut?, hcut]
  rfl

/-! ## Literals -/

/-- How a reader reads printed literals. -/
def Reader.reading (r : Reader) : Reading := fun indent literal =>
  match literal with
  | .int n => r.number (toString n).toList
  | .float x =>
    if x = .infinite false then some (.name "inf") else r.number (printedFloat.render x).toList
  | .string s =>
    if BlockString.fits s.toList then r.block (BlockString.inner indent s.toList)
    else r.quoted (StringLiteral.encode s.toList)
  | _ => none

theorem readsOpen_int (indent : Nat) (n : Int) :
    ReadsOpen r (Value.print indent (.int n)) [r.reading indent (.int n)] := by
  rw [Value.print]
  exact readsOpen_number (isNumberText_int n)

theorem readsOpen_float (indent : Nat) {x : Binary64} (h : x.Normal) :
    ReadsOpen r (Value.print indent (.float x)) [r.reading indent (.float x)] := by
  rw [Value.print]
  by_cases hx : x = .infinite false
  · subst hx
    exact readsOpen_name (isName_of (s := "inf") rfl (by decide))
  · rw [show r.reading indent (.float x) = _ from if_neg hx]
    exact readsOpen_number (isNumberText_float h hx)

theorem readsOpen_string (indent : Nat) (s : String) :
    ReadsOpen r (Value.print indent (.string s)) [r.reading indent (.string s)] := by
  rw [Value.print]
  unfold printString Reader.reading
  dsimp only
  split
  · exact (reads_block indent s.toList).open
  · exact readsOpen_quoted s.toList

end Composables.Graphql
