import Composables.Graphql.Printer
import Composables.Proofs.Graphql.Formed

/-
  Cutting a text into tokens, piece by piece. A reader says how literals are read, and a piece of a
  text has its tokens whatever follows it (`Reads`), or if what follows does not run on
  (`ReadsOpen`). Readers that take literals for what they say cut as the parser does (`Scans.from`).
-/

namespace Composables.Graphql

/-! ## Readers -/

/-- How literals are read: what is written as a number, between quotes, and between triple
quotes. -/
structure Reader where
  number : List Char → Option Token
  quoted : List Char → Option Token
  block : List Char → Option Token

def tripleQuotes : List Char := ['"', '"', '"']

namespace Reader

/-- Literals are read for what they say. -/
def strict : Reader where
  number := Token.ofNumeral?
  quoted := Token.ofQuoted?
  block cs := some (.string (String.ofList (BlockString.decode cs)))

/-- Literals are taken as they are written. -/
def verbatim : Reader where
  number cs := some (.string (String.ofList cs))
  quoted cs := some (.string (String.ofList ('"' :: cs ++ ['"'])))
  block cs := some (.string (String.ofList (tripleQuotes ++ cs ++ tripleQuotes)))

/-- The token at the front of a text, and what follows it. -/
def cut? (r : Reader) : List Char → Option (Token × List Char)
  | [] => none
  | '.' :: '.' :: '.' :: cs => some (.spread, cs)
  | '"' :: '"' :: '"' :: cs => (Token.cutBlock? cs).bind fun b => (r.block b.1).map (·, b.2)
  | '"' :: cs => (Token.cutQuoted? cs).bind fun b => (r.quoted b.1).map (·, b.2)
  | c :: cs =>
    if Token.isSymbol c then some (.symbol c, cs)
    else if Token.isNameStart c then
      some (.name (String.ofList (c :: cs.takeWhile Token.isNameChar)),
        cs.dropWhile Token.isNameChar)
    else if Token.isNumberStart c then
      (r.number (c :: cs.takeWhile fun c => !Token.endsNumber c)).map
        (·, cs.dropWhile fun c => !Token.endsNumber c)
    else none

theorem strict_cut? (cs : List Char) :
    strict.cut? cs = (Token.cut? cs).map fun c => (c.token, c.rest) := by
  unfold cut?
  split
  · rfl
  · rw [Token.cut?]
    rfl
  · rename_i cs
    rw [Token.cut?]
    cases Token.cutBlock? cs <;> rfl
  · rename_i cs hblock
    rw [Token.cut?]
    · cases h : Token.cutQuoted? cs with
      | none => rfl
      | some b => cases hb : Token.ofQuoted? b.1 <;> simp [strict, hb]
    · exact hblock
  · rename_i c cs hdots hblock hquote
    rw [Token.cut?]
    · split
      · rfl
      · split
        · rfl
        · split
          · cases h : Token.ofNumeral? (c :: cs.takeWhile fun c => !Token.endsNumber c) <;>
              simp [strict, h]
          · rfl
    · exact hdots
    · exact hblock
    · exact hquote

end Reader

/-! ## Scanning -/

theorem skip_position (cs : List Char) :
    (∀ p q, (Token.skipIgnored p cs).2 = (Token.skipIgnored q cs).2) ∧
    ∀ p q, (Token.skipIgnored.skipComment p cs).2 = (Token.skipIgnored.skipComment q cs).2 := by
  induction cs with
  | nil => exact ⟨fun _ _ => rfl, fun _ _ => rfl⟩
  | cons c cs ih =>
      constructor
      · intro p q
        unfold Token.skipIgnored
        split
        · rename_i heq
          cases heq
        · rename_i heq
          cases heq
          exact ih.2 p q
        · rename_i heq
          cases heq
          split
          · exact ih.1 _ _
          · rfl
      · intro p q
        unfold Token.skipIgnored.skipComment
        split
        · exact ih.1 _ _
        · exact ih.2 p q

/-- A text from its first token on. -/
def skipped (cs : List Char) : List Char := (Token.skipIgnored .start cs).2

theorem skipIgnored_snd (p : Position) (cs : List Char) :
    (Token.skipIgnored p cs).2 = skipped cs := (skip_position cs).1 p .start

theorem skipped_space {c : Char} (h : Token.isSpace c) (cs : List Char) :
    skipped (c :: cs) = skipped cs := by
  have hne : c ≠ '#' := by
    rintro rfl
    cases h
  rw [skipped, Token.skipIgnored, if_pos h, skipIgnored_snd]
  rintro rfl
  exact hne rfl

/-- A character that is neither space nor opens a comment. -/
def Opens (c : Char) : Prop := Token.isSpace c = false ∧ c ≠ '#'

theorem skipped_opens {c : Char} (h : Opens c) (cs : List Char) : skipped (c :: cs) = c :: cs := by
  rw [skipped, Token.skipIgnored, h.1]
  · rfl
  · rintro rfl
    exact h.2 rfl

/-- The tokens of a text under a reader, up to the first that cannot be read. -/
inductive Scans (r : Reader) : List Char → List (Option Token) → Prop
  | done {cs : List Char} : skipped cs = [] → Scans r cs []
  | next {cs rest : List Char} {token : Token} {ts : List (Option Token)} :
    skipped cs ≠ [] → r.cut? (skipped cs) = some (token, rest) → Scans r rest ts →
      Scans r cs (some token :: ts)
  | stuck {cs : List Char} {ts : List (Option Token)} :
    skipped cs ≠ [] → r.cut? (skipped cs) = none → Scans r cs (none :: ts)

namespace Scans

variable {r : Reader} {cs rest : List Char} {ts us : List (Option Token)} {c : Char}

theorem of_skipped {cs' : List Char} (h : Scans r cs ts) (hskip : skipped cs' = skipped cs) :
    Scans r cs' ts := by
  cases h with
  | done h => exact .done (hskip ▸ h)
  | next hne hcut h => exact .next (hskip ▸ hne) (hskip ▸ hcut) h
  | stuck hne hcut => exact .stuck (hskip ▸ hne) (hskip ▸ hcut)

theorem space (hc : Token.isSpace c) (h : Scans r cs ts) : Scans r (c :: cs) ts :=
  h.of_skipped (skipped_space hc cs)

/-- A token, or a literal that cannot be read. -/
theorem token {token? : Option Token} (hc : Opens c)
    (hcut : r.cut? (c :: cs) = token?.map (·, rest)) (h : Scans r rest ts) :
    Scans r (c :: cs) (token? :: ts) := by
  have hskip := skipped_opens hc cs
  cases token? with
  | none => exact .stuck (by simp [hskip]) (hskip.symm ▸ hcut)
  | some token => exact .next (by simp [hskip]) (hskip.symm ▸ hcut) h

/-- A text that is read to its end has one list of tokens. -/
theorem unique {vs ws : List Token} (h : Scans r cs (vs.map some)) (h' : Scans r cs (ws.map some)) :
    vs = ws := by
  induction vs generalizing cs ws with
  | nil =>
      cases h with
      | done hdone =>
          cases ws with
          | nil => rfl
          | cons w ws =>
              cases h' with
              | next hne => exact absurd hdone hne
  | cons v vs ih =>
      cases h with
      | next hne hcut h =>
          cases ws with
          | nil =>
              cases h' with
              | done hdone => exact absurd hdone hne
          | cons w ws =>
              cases h' with
              | next hne' hcut' h' =>
                  obtain ⟨rfl, rfl⟩ := Prod.mk.inj (Option.some.inj (hcut.symm.trans hcut'))
                  rw [ih h h']

end Scans

/-! ## Scanning by the program -/

theorem length_of_cutBlock? {cs : List Char} {b : List Char × List Char}
    (h : Token.cutBlock? cs = some b) : b.2.length ≤ cs.length := by
  induction cs using Token.cutBlock?.induct generalizing b with
  | case1 => cases h
  | case2 cs =>
      rw [Token.cutBlock?] at h
      cases h
      simp only [List.length_cons]
      omega
  | case3 cs ih =>
      rw [Token.cutBlock?] at h
      obtain ⟨b', hb, rfl⟩ := Option.map_eq_some_iff.mp h
      have := ih hb
      simp only [List.length_cons]
      omega
  | case4 c cs hquotes hescape ih =>
      rw [Token.cutBlock?] at h
      · obtain ⟨b', hb, rfl⟩ := Option.map_eq_some_iff.mp h
        have := ih hb
        simp only [List.length_cons]
        omega
      · exact hquotes
      · exact hescape

theorem length_of_cutQuoted? {cs : List Char} {b : List Char × List Char}
    (h : Token.cutQuoted? cs = some b) : b.2.length ≤ cs.length := by
  induction cs using Token.cutQuoted?.induct generalizing b with
  | case1 => cases h
  | case2 cs =>
      rw [Token.cutQuoted?] at h
      cases h
      simp
  | case3 => cases h
  | case4 cs =>
      rw [Token.cutQuoted?, if_pos rfl] at h
      cases h
  | case5 c cs hc ih =>
      rw [Token.cutQuoted?, if_neg hc] at h
      obtain ⟨b', hb, rfl⟩ := Option.map_eq_some_iff.mp h
      have := ih hb
      simp only [List.length_cons]
      omega
  | case6 c cs hquote hfeed hescape ih =>
      rw [Token.cutQuoted?] at h
      · obtain ⟨b', hb, rfl⟩ := Option.map_eq_some_iff.mp h
        have := ih hb
        simp only [List.length_cons]
        omega
      · exact hquote
      · exact hfeed
      · exact hescape

/-- A token has a character at least. -/
theorem Reader.length_of_cut? {r : Reader} {cs rest : List Char} {token : Token}
    (h : r.cut? cs = some (token, rest)) : rest.length < cs.length := by
  unfold cut? at h
  split at h
  · cases h
  · cases h
    simp only [List.length_cons]
    omega
  · obtain ⟨b, hb, h⟩ := Option.bind_eq_some_iff.mp h
    obtain ⟨_, _, h⟩ := Option.map_eq_some_iff.mp h
    cases h
    have := length_of_cutBlock? hb
    simp only [List.length_cons]
    omega
  · obtain ⟨b, hb, h⟩ := Option.bind_eq_some_iff.mp h
    obtain ⟨_, _, h⟩ := Option.map_eq_some_iff.mp h
    cases h
    have := length_of_cutQuoted? hb
    simp only [List.length_cons]
    omega
  · have hdrop : ∀ (p : Char → Bool) (cs : List Char), (cs.dropWhile p).length ≤ cs.length :=
      fun p cs => (List.dropWhile_suffix p).length_le
    split at h
    · cases h
      simp
    · split at h
      · cases h
        exact Nat.lt_succ_of_le (hdrop _ _)
      · split at h
        · obtain ⟨_, _, h⟩ := Option.map_eq_some_iff.mp h
          cases h
          exact Nat.lt_succ_of_le (hdrop _ _)
        · cases h

theorem length_skipped (cs : List Char) : (skipped cs).length ≤ cs.length := by
  have hboth : (∀ p, (Token.skipIgnored p cs).2.length ≤ cs.length) ∧
      ∀ p, (Token.skipIgnored.skipComment p cs).2.length ≤ cs.length := by
    induction cs with
    | nil => exact ⟨fun _ => Nat.le_refl 0, fun _ => Nat.le_refl 0⟩
    | cons c cs ih =>
        constructor
        · intro p
          unfold Token.skipIgnored
          split
          · exact Nat.zero_le _
          · rename_i heq
            cases heq
            exact (ih.2 p).trans (Nat.le_succ _)
          · rename_i heq
            cases heq
            split
            · exact (ih.1 _).trans (Nat.le_succ _)
            · exact Nat.le_refl _
        · intro p
          unfold Token.skipIgnored.skipComment
          split
          · exact (ih.1 _).trans (Nat.le_succ _)
          · exact (ih.2 p).trans (Nat.le_succ _)
  exact hboth.1 .start

theorem exists_skipIgnored (p : Position) (cs : List Char) :
    ∃ p', Token.skipIgnored p cs = (p', skipped cs) :=
  ⟨_, Prod.ext rfl (skipIgnored_snd p cs)⟩

/-- What a scan gives: all tokens of a text, or some of them and that the text goes on. -/
theorem Scans.from {cs : List Char} {ts : List (Option Token)} (h : Scans .strict cs ts)
    {room : Nat} (hroom : cs.length < room) (p : Position) :
    (none ∈ ts → (Scan.from room p cs).complete = false) ∧
      (none ∉ ts → (Scan.from room p cs).complete = true ∧
        (Scan.from room p cs).lexemes.map (fun l => some l.token) = ts) := by
  induction h generalizing room p with
  | @done cs hdone =>
      obtain ⟨room, rfl⟩ := Nat.exists_eq_add_one.mpr (Nat.zero_lt_of_lt hroom)
      obtain ⟨p', hp⟩ := exists_skipIgnored p cs
      rw [Scan.from, hp, hdone]
      simp
  | @next cs rest token ts hne hcut h ih =>
      obtain ⟨room, rfl⟩ := Nat.exists_eq_add_one.mpr (Nat.zero_lt_of_lt hroom)
      obtain ⟨p', hp⟩ := exists_skipIgnored p cs
      have hlength := (Reader.length_of_cut? hcut).trans_le (length_skipped cs)
      rw [Reader.strict_cut?] at hcut
      obtain ⟨cut, hcut', heq⟩ := Option.map_eq_some_iff.mp hcut
      cases heq
      -- a cut takes at least one sign, so the room that is left suffices
      have hroom : cut.rest.length < room := by omega
      obtain ⟨ih1, ih2⟩ := ih hroom (cut.text.foldl Token.pass p')
      rw [Scan.from, hp]
      split
      · rename_i heq
        exact absurd (Prod.mk.inj heq).2 hne
      · rename_i heq
        cases heq
        rw [hcut']
        simpa using ⟨ih1, ih2⟩
  | @stuck cs ts hne hcut =>
      obtain ⟨room, rfl⟩ := Nat.exists_eq_add_one.mpr (Nat.zero_lt_of_lt hroom)
      obtain ⟨p', hp⟩ := exists_skipIgnored p cs
      rw [Reader.strict_cut?, Option.map_eq_none_iff] at hcut
      rw [Scan.from, hp]
      split
      · rename_i heq
        exact absurd (Prod.mk.inj heq).2 hne
      · rename_i heq
        cases heq
        rw [hcut]
        simp

/-! ## Pieces of a text -/

section Pieces

variable {r : Reader} {s t : String} {ts us : List (Option Token)}

/-- A text begins, if at all, with a character that ends a number or a name. -/
def Breaks (cs : List Char) : Prop := ∀ c ∈ cs.head?, Token.endsNumber c

/-- A piece of text has the given tokens, whatever follows it. -/
def Reads (r : Reader) (s : String) (ts : List (Option Token)) : Prop :=
  ∀ rest us, Scans r rest us → Scans r (s.toList ++ rest) (ts ++ us)

/-- A piece of text has the given tokens, if what follows does not run on. -/
def ReadsOpen (r : Reader) (s : String) (ts : List (Option Token)) : Prop :=
  ∀ rest us, Breaks rest → Scans r rest us → Scans r (s.toList ++ rest) (ts ++ us)

/-- A piece of text is empty or begins with a character that ends a number or a name. -/
def Guards (s : String) : Prop := Breaks s.toList

/-- A piece of text begins with a character that ends a number or a name. -/
def GuardsAll (s : String) : Prop := s ≠ "" ∧ Guards s

theorem Reads.open (h : Reads r s ts) : ReadsOpen r s ts := fun rest us _ => h rest us

theorem Reads.append (hs : Reads r s ts) (ht : Reads r t us) : Reads r (s ++ t) (ts ++ us) := by
  intro rest vs h
  rw [String.toList_append, List.append_assoc, List.append_assoc]
  exact hs _ _ (ht _ _ h)

theorem Reads.append_open (hs : Reads r s ts) (ht : ReadsOpen r t us) :
    ReadsOpen r (s ++ t) (ts ++ us) := by
  intro rest vs hrest h
  rw [String.toList_append, List.append_assoc, List.append_assoc]
  exact hs _ _ (ht _ _ hrest h)

theorem Guards.breaks (h : Guards s) {rest : List Char} (hrest : Breaks rest) :
    Breaks (s.toList ++ rest) := by
  intro c hc
  rw [List.head?_append] at hc
  cases hs : s.toList.head? with
  | none =>
      rw [hs] at hc
      exact hrest c hc
  | some d =>
      rw [hs] at hc
      exact h c (hs.trans hc)

theorem GuardsAll.breaks (h : GuardsAll s) (rest : List Char) : Breaks (s.toList ++ rest) := by
  intro c hc
  obtain ⟨d, ds, hs⟩ := List.exists_cons_of_ne_nil (mt String.toList_eq_nil_iff.mp h.1)
  rw [hs] at hc
  exact h.2 c (hs ▸ hc)

theorem ReadsOpen.append (hs : ReadsOpen r s ts) (ht : ReadsOpen r t us) (hguards : Guards t) :
    ReadsOpen r (s ++ t) (ts ++ us) := by
  intro rest vs hrest h
  rw [String.toList_append, List.append_assoc, List.append_assoc]
  exact hs _ _ (hguards.breaks hrest) (ht _ _ hrest h)

theorem ReadsOpen.close (hs : ReadsOpen r s ts) (ht : Reads r t us) (hguards : GuardsAll t) :
    Reads r (s ++ t) (ts ++ us) := by
  intro rest vs h
  rw [String.toList_append, List.append_assoc, List.append_assoc]
  exact hs _ _ (hguards.breaks rest) (ht _ _ h)

theorem guards_nil : Guards "" := by
  intro c hc
  cases hc

theorem Guards.append (hs : Guards s) (ht : Guards t) : Guards (s ++ t) := by
  have := hs.breaks ht
  rwa [← String.toList_append] at this

theorem GuardsAll.append (hs : GuardsAll s) (t : String) : GuardsAll (s ++ t) := by
  refine ⟨?_, ?_⟩
  · rw [Ne, String.append_eq_empty_iff]
    exact fun h => hs.1 h.1
  · have := hs.breaks t.toList
    rwa [← String.toList_append] at this

/-! ### Symbols and names -/

theorem cut?_cons {c : Char} (hdot : c ≠ '.') (hquote : c ≠ '"') (cs : List Char) :
    r.cut? (c :: cs) =
      if Token.isSymbol c then some (.symbol c, cs)
      else if Token.isNameStart c then
        some (.name (String.ofList (c :: cs.takeWhile Token.isNameChar)),
          cs.dropWhile Token.isNameChar)
      else if Token.isNumberStart c then
        (r.number (c :: cs.takeWhile fun c => !Token.endsNumber c)).map
          (·, cs.dropWhile fun c => !Token.endsNumber c)
      else none := by
  rw [Reader.cut?]
  · rintro _ rfl
    exact absurd rfl hdot
  · rintro _ rfl
    exact absurd rfl hquote
  · exact hquote

/-- The symbols in a text of symbols and spaces. -/
def symbolTokens (s : String) : List (Option Token) :=
  (s.toList.filter Token.isSymbol).map (some ∘ .symbol)

theorem reads_symbols (h : ∀ c ∈ s.toList, Token.isSpace c ∨ Token.isSymbol c) :
    Reads r s (symbolTokens s) := by
  intro rest us hrest
  unfold symbolTokens
  generalize s.toList = cs at h
  induction cs with
  | nil => exact hrest
  | cons c cs ih =>
      rw [List.forall_mem_cons] at h
      rcases hsymbol : Token.isSymbol c with _ | _
      · rw [List.filter_cons_of_neg (by simp [hsymbol])]
        exact (ih h.2).space (h.1.resolve_right (by simp [hsymbol]))
      · rw [List.filter_cons_of_pos hsymbol]
        have hmem : c ∈ Token.symbols := List.elem_iff.mp hsymbol
        have hall : Token.symbols.all (fun d =>
            !Token.isSpace d && d != '#' && d != '.' && d != '"') = true := by decide
        have hc := List.all_eq_true.mp hall c hmem
        simp only [Bool.and_eq_true, Bool.not_eq_true', bne_iff_ne] at hc
        obtain ⟨⟨⟨hspace, hcomment⟩, hdot⟩, hquote⟩ := hc
        refine (ih h.2).token ⟨hspace, hcomment⟩ ?_
        rw [cut?_cons hdot hquote, if_pos hsymbol]
        rfl

theorem reads_spaces (n : Nat) : Reads r (spaces n) [] := by
  have hall : ∀ c ∈ (spaces n).toList, c = ' ' := by
    intro c hc
    rw [spaces, String.toList_ofList] at hc
    exact (List.mem_replicate.mp hc).2
  have hnone : symbolTokens (spaces n) = [] := by
    rw [symbolTokens, List.filter_eq_nil_iff.mpr, List.map_nil]
    intro c hc
    rw [hall c hc]
    decide
  rw [← hnone]
  refine reads_symbols fun c hc => .inl ?_
  rw [hall c hc]
  rfl

theorem reads_dots : Reads r "..." [some .spread] := by
  intro rest us h
  show Scans r ('.' :: '.' :: '.' :: rest) _
  exact h.token ⟨by decide, by decide⟩ (by rw [Reader.cut?]; rfl)

/-- The characters that stand between tokens or are tokens. -/
def separators : List Char := [' ', ',', '\t', '\r', '\n', '\uFEFF', '#'] ++ Token.symbols

theorem isNameChar_separators {c : Char} (h : c ∈ separators) : Token.isNameChar c = false := by
  have hall : separators.all (fun d => !Token.isNameChar d) = true := by decide
  simpa using List.all_eq_true.mp hall c h

theorem isNameChar_of_endsNumber {c : Char} (h : Token.endsNumber c) :
    Token.isNameChar c = false := by
  refine isNameChar_separators ?_
  have hsymbol : Token.isSymbol c ↔ c ∈ Token.symbols := List.elem_iff
  simp only [Token.endsNumber, Token.isLineEnd, Bool.or_eq_true, beq_iff_eq] at h
  simp only [separators, List.mem_append, List.mem_cons]
  tauto

theorem isNameChar_of_isSpace {c : Char} (h : Token.isSpace c) : Token.isNameChar c = false := by
  refine isNameChar_separators ?_
  simp only [Token.isSpace, Bool.or_eq_true, beq_iff_eq] at h
  simp only [separators, List.mem_append, List.mem_cons]
  tauto

theorem takeWhile_break {p : Char → Bool} {cs rest : List Char} (hcs : ∀ c ∈ cs, p c)
    (hp : ∀ c, Token.endsNumber c → p c = false) (hrest : Breaks rest) :
    (cs ++ rest).takeWhile p = cs ∧ (cs ++ rest).dropWhile p = rest := by
  rw [List.takeWhile_append_of_pos hcs, List.dropWhile_append_of_pos hcs]
  cases rest with
  | nil => simp
  | cons c rest =>
      have hc := hp c (hrest c rfl)
      rw [List.takeWhile_cons_of_neg (by simp [hc]), List.dropWhile_cons_of_neg (by simp [hc])]
      simp

/-- A name is read up to a character that ends it. -/
theorem readsOpen_name {name : String} (h : IsName name) :
    ReadsOpen r name [some (.name name)] := by
  intro rest us hrest hscan
  obtain ⟨c, cs, hname, hstart, hchars⟩ := h
  obtain ⟨htake, hdrop⟩ := takeWhile_break hchars (fun _ => isNameChar_of_endsNumber) hrest
  have hchar : Token.isNameChar c := by
    simp only [Token.isNameStart, Token.isNameChar, Char.isAlphanum, Bool.or_eq_true] at hstart ⊢
    tauto
  have hends : Token.endsNumber c = false := by
    by_contra hends
    rw [isNameChar_of_endsNumber (Bool.eq_true_of_not_eq_false hends)] at hchar
    cases hchar
  have hopens : Opens c := by
    constructor
    · by_contra hspace
      rw [isNameChar_of_isSpace (Bool.eq_true_of_not_eq_false hspace)] at hchar
      cases hchar
    · rintro rfl
      cases hends
  have hdot : c ≠ '.' := by
    rintro rfl
    cases hchar
  have hquote : c ≠ '"' := by
    rintro rfl
    cases hchar
  have hsymbol : Token.isSymbol c = false := by
    simp only [Token.endsNumber, Bool.or_eq_false_iff] at hends
    exact hends.2
  rw [hname, List.cons_append]
  refine hscan.token hopens ?_
  rw [cut?_cons hdot hquote, hsymbol, if_neg (by decide), if_pos hstart, htake, hdrop, ← hname,
    String.ofList_toList]
  rfl

end Pieces

end Composables.Graphql
