import Composables.Proofs.Graphql.Literal
import Composables.Proofs.Text.Split
import Mathlib.Data.List.DropRight

/-
  Block strings read back. A text that is laid out as a block comes back without the indent that its
  lines share, without blank lines at both ends and without the returns at the ends of its lines
  (`decode_inner`); `decode_inner_iff` says which texts come back as they are.
-/

namespace Composables.Graphql.BlockString

variable {l : Line} {ls : List Line} {cs : List Char}

/-! ## Lines -/

/-- A line without the carriage return at its end. -/
def dropReturn (l : Line) : Line := if l.getLast? = some '\r' then l.dropLast else l

theorem dropReturn_cons {c : Char} (h : c ≠ '\r' ∨ l ≠ []) :
    dropReturn (c :: l) = c :: dropReturn l := by
  unfold dropReturn
  cases l with
  | nil =>
      have hc : c ≠ '\r' := h.resolve_right (· rfl)
      simp [hc]
  | cons d l =>
      rw [List.getLast?_cons_cons, List.dropLast_cons_cons]
      split <;> rfl

theorem dropReturn_append (ds : List Char) (h : l ≠ []) :
    dropReturn (ds ++ l) = ds ++ dropReturn l := by
  induction ds with
  | nil => rfl
  | cons d ds ih =>
      rw [List.cons_append, dropReturn_cons, ih, List.cons_append]
      exact .inr (by simp [h])

theorem dropReturn_eq_self_iff : dropReturn l = l ↔ l.getLast? ≠ some '\r' := by
  unfold dropReturn
  split
  · rename_i h
    have hne : l ≠ [] := by
      rintro rfl
      cases h
    have hlength := List.length_pos_of_ne_nil hne
    refine iff_of_false (fun heq => ?_) (by simp [h])
    have := congrArg List.length heq
    rw [List.length_dropLast] at this
    omega
  · rename_i h
    exact iff_of_true rfl h

theorem length_dropReturn_le (l : Line) : (dropReturn l).length ≤ l.length := by
  unfold dropReturn
  split
  · exact List.length_dropLast.trans_le (Nat.sub_le _ _)
  · exact Nat.le_refl _

theorem lines_cons_newline (h : '\n' ∉ l) (cs : List Char) :
    Text.lines (l ++ '\n' :: cs) = dropReturn l :: Text.lines cs := by
  induction l with
  | nil => rw [List.nil_append, Text.lines]; rfl
  | cons c l ih =>
      rw [List.mem_cons, not_or] at h
      by_cases hreturn : c = '\r' ∧ l = []
      · obtain ⟨rfl, rfl⟩ := hreturn
        rw [List.singleton_append, Text.lines]
        rfl
      · have hcons : c ≠ '\r' ∨ l ≠ [] := by tauto
        rw [dropReturn_cons hcons, List.cons_append, Text.lines, ih h.2]
        · rfl
        · exact fun hc => absurd hc.symm h.1
        · intro cs' hc hcs
          cases l with
          | nil => exact hcons.elim (absurd hc) (absurd rfl)
          | cons d l => exact h.2 (by rw [(List.cons.inj hcs).1]; exact List.mem_cons_self)

theorem lines_last (h : '\n' ∉ l) : Text.lines l = if l = [] then [] else [l] := by
  induction l with
  | nil => rfl
  | cons c l ih =>
      rw [List.mem_cons, not_or] at h
      rw [Text.lines, ih h.2, if_neg (List.cons_ne_nil c l)]
      · split
        · rename_i hl
          rw [hl]
          rfl
        · rfl
      · exact fun hc => absurd hc.symm h.1
      · intro cs' _ hcs
        exact h.2 (by rw [hcs]; exact List.mem_cons_self)

theorem lines_flatMap (h : ∀ l ∈ ls, '\n' ∉ l) (cs : List Char) :
    Text.lines (ls.flatMap (· ++ ['\n']) ++ cs) = ls.map dropReturn ++ Text.lines cs := by
  induction ls with
  | nil => rfl
  | cons l ls ih =>
      rw [List.forall_mem_cons] at h
      rw [List.flatMap_cons, List.append_assoc, List.append_assoc, List.singleton_append,
        lines_cons_newline h.1, ih h.2, List.map_cons, List.cons_append]

theorem not_mem_of_mem_lines : ∀ l ∈ Text.lines cs, '\n' ∉ l := by
  induction cs using Text.lines.induct with
  | case1 => simp [Text.lines]
  | case2 cs ih => simpa [Text.lines] using ih
  | case3 cs ih => simpa [Text.lines] using ih
  | case4 c cs hnewline hreturn ih =>
      rw [Text.lines]
      · have hc : c ≠ '\n' := fun hc => hnewline hc
        cases hlines : Text.lines cs with
        | nil => simpa [Text.attach] using Ne.symm hc
        | cons first rest =>
            rw [hlines] at ih
            simpa [Text.attach, Ne.symm hc] using ih
      · exact hnewline
      · exact hreturn

theorem join_append_singleton (pieces : List Line) (last : Line) :
    Text.join ['\n'] (pieces ++ [last]) = pieces.flatMap (· ++ ['\n']) ++ last := by
  induction pieces with
  | nil => rfl
  | cons p pieces ih =>
      rw [List.cons_append, Text.join_cons_of_ne_nil (by simp), ih, List.flatMap_cons,
        ← List.append_assoc]

/-- The lines of a text in terms of the pieces between its line feeds. -/
theorem lines_eq {pieces : List Line} {last : Line} (h : Text.split '\n' cs = pieces ++ [last]) :
    Text.lines cs = pieces.map dropReturn ++ if last = [] then [] else [last] := by
  have hpieces : ∀ p ∈ pieces ++ [last], '\n' ∉ p := h ▸ Text.not_mem_of_mem_split
  rw [List.forall_mem_append, List.forall_mem_singleton] at hpieces
  rw [← Text.join_split '\n' cs, h, join_append_singleton, lines_flatMap hpieces.1,
    lines_last hpieces.2]

/-! ## Indents and quotes -/

theorem dropBytes_zero (l : Line) : dropBytes 0 l = l := by
  cases l <;> rfl

theorem byteLength_append (as bs : List Char) :
    byteLength (as ++ bs) = byteLength as + byteLength bs := by
  induction as with
  | nil => rw [List.nil_append, byteLength, Nat.zero_add]
  | cons a as ih => rw [List.cons_append, byteLength, byteLength, ih, Nat.add_assoc]

theorem isBlankLine_cons (c : Char) (l : Line) :
    isBlankLine (c :: l) = (Text.isBlank c && isBlankLine l) := rfl

theorem indentOf_cons {c : Char} (h : Text.isBlank c) (l : Line) :
    indentOf (c :: l) = c.utf8Size + indentOf l := by
  rw [indentOf, List.takeWhile_cons_of_pos h, byteLength, indentOf]

theorem indentOf_cons_of_not {c : Char} (h : Text.isBlank c = false) (l : Line) :
    indentOf (c :: l) = 0 := by
  rw [indentOf, List.takeWhile_cons_of_neg (by simp [h]), byteLength]

theorem indentOf_le (l : Line) : indentOf l ≤ byteLength l := by
  conv_rhs => rw [← List.takeWhile_append_dropWhile (p := Text.isBlank) (l := l)]
  rw [byteLength_append, indentOf]
  exact Nat.le_add_right _ _

/-- Spaces in front of a line make its indent larger. -/
theorem indentOf_spaces (n : Nat) (l : Line) :
    indentOf (List.replicate n ' ' ++ l) = n + indentOf l := by
  induction n with
  | zero => rw [List.replicate_zero, List.nil_append, Nat.zero_add]
  | succ n ih =>
      rw [List.replicate_succ, List.cons_append, indentOf_cons (by decide), ih]
      show 1 + _ = _
      omega

theorem dropBytes_spaces (n m : Nat) (l : Line) :
    dropBytes (n + m) (List.replicate n ' ' ++ l) = dropBytes m l := by
  induction n with
  | zero => rw [List.replicate_zero, List.nil_append, Nat.zero_add]
  | succ n ih =>
      rw [List.replicate_succ, List.cons_append, dropBytes, if_neg (by omega)]
      show dropBytes (n + 1 + m - 1) _ = _
      rw [show n + 1 + m - 1 = n + m by omega, ih]

theorem dropBytes_suffix (n : Nat) (l : Line) : dropBytes n l <:+ l := by
  induction l generalizing n with
  | nil => exact List.suffix_refl _
  | cons c l ih =>
      rw [dropBytes]
      split
      · exact List.suffix_refl _
      · exact (ih _).trans (List.suffix_cons c l)

theorem eq_zero_of_dropBytes {n : Nat} (hne : l ≠ []) (h : (dropBytes n l).length = l.length) :
    n = 0 := by
  cases l with
  | nil => exact absurd rfl hne
  | cons c l =>
      rw [dropBytes] at h
      split at h
      · assumption
      · have := (dropBytes_suffix (n - c.utf8Size) l).length_le
        rw [h, List.length_cons] at this
        omega

theorem isBlankLine_of_suffix {l' : Line} (h : l' <:+ l) (hl : isBlankLine l) : isBlankLine l' :=
  List.all_eq_true.mpr fun c hc => List.all_eq_true.mp hl c (h.subset hc)

theorem blank_dropReturn (l : Line) : isBlankLine (dropReturn l) = isBlankLine l := by
  unfold dropReturn
  split
  · rename_i h
    obtain ⟨l, rfl⟩ := List.getLast?_eq_some_iff.mp h
    rw [List.dropLast_concat, isBlankLine, isBlankLine, List.all_append]
    simp [show Text.isBlank '\r' = true by decide]
  · rfl

theorem indentOf_dropReturn (h : isBlankLine l = false) : indentOf (dropReturn l) = indentOf l := by
  unfold dropReturn
  split
  · rename_i h'
    obtain ⟨l, rfl⟩ := List.getLast?_eq_some_iff.mp h'
    rw [isBlankLine, List.all_append, show ['\r'].all Text.isBlank = true by decide,
      Bool.and_true] at h
    rw [List.dropLast_concat, indentOf, indentOf, List.takeWhile_append, if_neg]
    intro hlength
    have heq := (List.takeWhile_prefix Text.isBlank (l := l)).eq_of_length hlength
    rw [List.all_eq_true.mpr (List.takeWhile_eq_self_iff.mp heq)] at h
    cases h
  · rfl

/-- A line with its quotes escaped, character by character. -/
theorem escapeQuotes_cons {c : Char} (h : c ≠ '"') (l : Line) :
    escapeQuotes (c :: l) = c :: escapeQuotes l := by
  rw [escapeQuotes]
  exact fun _ hc => absurd hc h

theorem escapeQuotes_ne_nil (h : l ≠ []) : escapeQuotes l ≠ [] := by
  unfold escapeQuotes
  split
  · exact List.cons_ne_nil _ _
  · exact List.cons_ne_nil _ _
  · exact absurd rfl h

theorem isBlankLine_escapeQuotes (l : Line) : isBlankLine (escapeQuotes l) = isBlankLine l := by
  induction l using escapeQuotes.induct with
  | case1 l ih => rfl
  | case2 c l hother ih =>
      rw [escapeQuotes, isBlankLine_cons, isBlankLine_cons, ih]
      exact hother
  | case3 => rfl

theorem indentOf_escapeQuotes (l : Line) : indentOf (escapeQuotes l) = indentOf l := by
  induction l using escapeQuotes.induct with
  | case1 l ih => rfl
  | case2 c l hother ih =>
      rw [escapeQuotes]
      · cases hc : Text.isBlank c with
        | true => rw [indentOf_cons hc, indentOf_cons hc, ih]
        | false => rw [indentOf_cons_of_not hc, indentOf_cons_of_not hc]
      · exact hother
  | case3 => rfl

theorem dropBytes_escapeQuotes {n : Nat} (h : n ≤ indentOf l) :
    dropBytes n (escapeQuotes l) = escapeQuotes (dropBytes n l) := by
  induction l generalizing n with
  | nil => rfl
  | cons c l ih =>
      by_cases hn : n = 0
      · rw [hn, dropBytes_zero, dropBytes_zero]
      · have hc : Text.isBlank c := by
          by_contra hc
          rw [indentOf_cons_of_not (by simpa using hc)] at h
          omega
        have hquote : c ≠ '"' := by
          rintro rfl
          cases hc
        rw [indentOf_cons hc] at h
        rw [escapeQuotes_cons hquote, dropBytes, dropBytes, if_neg hn, if_neg hn, ih (by omega)]

theorem dropReturn_isPrefix (l : Line) : dropReturn l <+: l := by
  unfold dropReturn
  split
  · exact List.dropLast_prefix l
  · exact List.prefix_refl l

theorem dropReturn_escapeQuotes (l : Line) :
    dropReturn (escapeQuotes l) = escapeQuotes (dropReturn l) := by
  induction l using escapeQuotes.induct with
  | case1 l ih =>
      have hquote : ∀ l : Line, dropReturn ('"' :: l) = '"' :: dropReturn l :=
        fun l => dropReturn_cons (.inl (by decide))
      rw [escapeQuotes, dropReturn_cons (.inl (by decide)), hquote, hquote, hquote, ih, hquote,
        hquote, hquote, escapeQuotes]
  | case2 c l hother ih =>
      rw [escapeQuotes]
      · by_cases hl : l = []
        · subst hl
          by_cases hc : c = '\r'
          · subst hc
            rfl
          · rw [dropReturn_cons (.inl hc), dropReturn_cons (.inl hc)]
            show [c] = escapeQuotes [c]
            rw [escapeQuotes]
            · rfl
            · intro cs _ hcs
              cases hcs
        · rw [dropReturn_cons (.inr (escapeQuotes_ne_nil hl)), dropReturn_cons (.inr hl), ih,
            escapeQuotes]
          intro cs hc hcs
          obtain ⟨ds, hds⟩ := dropReturn_isPrefix l
          rw [hcs] at hds
          exact hother (cs ++ ds) hc hds.symm
      · exact hother
  | case3 => rfl

theorem unescapeQuotes_escapeQuotes (l : Line) : unescapeQuotes (escapeQuotes l) = l := by
  induction l using escapeQuotes.induct with
  | case1 l ih => rw [escapeQuotes, unescapeQuotes, ih]
  | case2 c l hother ih =>
      rw [escapeQuotes, unescapeQuotes, ih]
      · intro cs _ hcs
        exact escapeQuotes_ne_quotes l [] (cs ++ ['\n']) (by rw [hcs]; rfl)
      · exact hother
  | case3 => rfl

/-! ## Reading a block -/

/-- A line of a block at an indent, as it is written. -/
def body (indent : Nat) (l : Line) : Line :=
  if isBlankLine l then [] else List.replicate (indent + 2) ' ' ++ escapeQuotes l

theorem inner_eq (indent : Nat) (cs : List Char) :
    inner indent cs = '\n' :: (((Text.lines cs).map (body indent)).flatMap (· ++ ['\n']) ++
      List.replicate indent ' ') := by
  rw [inner, List.flatMap_map]
  congr 3
  funext l
  unfold body
  split <;> simp

/-- A line of a block as it is read, where the lines share an indent. -/
def relaid (n : Nat) (l : Line) : Line := if isBlankLine l then [] else dropBytes n (dropReturn l)

theorem commonIndent_le {l : Line} (hl : l ∈ ls) (hblank : isBlankLine l = false) :
    commonIndent ls ≤ indentOf l := by
  have hmem : indentOf l ∈ (ls.filter fun l => !isBlankLine l).map indentOf :=
    List.mem_map_of_mem (List.mem_filter.mpr ⟨hl, by rw [hblank]; rfl⟩)
  unfold commonIndent
  cases hmin : ((ls.filter fun l => !isBlankLine l).map indentOf).min? with
  | none => exact Nat.zero_le _
  | some m => exact (List.min?_eq_some_iff.mp hmin).2 _ hmem

theorem exists_commonIndent {l : Line} (hl : l ∈ ls) (hblank : isBlankLine l = false) :
    ∃ l ∈ ls, isBlankLine l = false ∧ indentOf l = commonIndent ls := by
  have hmem : indentOf l ∈ (ls.filter fun l => !isBlankLine l).map indentOf :=
    List.mem_map_of_mem (List.mem_filter.mpr ⟨hl, by rw [hblank]; rfl⟩)
  unfold commonIndent
  cases hmin : ((ls.filter fun l => !isBlankLine l).map indentOf).min? with
  | none =>
      rw [List.min?_eq_none_iff.mp hmin] at hmem
      cases hmem
  | some m =>
      obtain ⟨l', hl', hm⟩ := List.mem_map.mp (List.min?_eq_some_iff.mp hmin).1
      obtain ⟨hl', hblank'⟩ := List.mem_filter.mp hl'
      exact ⟨l', hl', by simpa using hblank', hm⟩

theorem isBlankLine_spaces (n : Nat) : isBlankLine (List.replicate n ' ') := by
  rw [isBlankLine, List.all_eq_true]
  intro c hc
  rw [(List.mem_replicate.mp hc).2]
  decide

theorem isBlankLine_body (indent : Nat) (l : Line) :
    isBlankLine (body indent l) = isBlankLine l := by
  unfold body
  split
  · rename_i h
    rw [h]
    rfl
  · rw [isBlankLine, List.all_append, ← isBlankLine, ← isBlankLine, isBlankLine_spaces,
      Bool.true_and, isBlankLine_escapeQuotes]

theorem indentOf_body (indent : Nat) (h : isBlankLine l = false) :
    indentOf (dropReturn (body indent l)) = indent + 2 + indentOf l := by
  rw [indentOf_dropReturn ((isBlankLine_body indent l).trans h), body, h, if_neg (by decide),
    indentOf_spaces, indentOf_escapeQuotes]

/-- The indent that the lines of a block share. -/
theorem commonIndent_body (indent : Nat) {tail : List Line} (htail : ∀ l ∈ tail, isBlankLine l)
    {l : Line} (hl : l ∈ ls) (hblank : isBlankLine l = false) :
    commonIndent ((ls.map (body indent)).map dropReturn ++ tail) =
      indent + 2 + commonIndent ls := by
  have hmem : ∀ l ∈ ls, isBlankLine l = false →
      dropReturn (body indent l) ∈ (ls.map (body indent)).map dropReturn ++ tail ∧
        isBlankLine (dropReturn (body indent l)) = false := fun l hl hblank =>
    ⟨List.mem_append_left _ (List.mem_map_of_mem (List.mem_map_of_mem hl)),
      (blank_dropReturn _).trans ((isBlankLine_body indent l).trans hblank)⟩
  apply Nat.le_antisymm
  · obtain ⟨l₀, hl₀, hblank₀, hindent⟩ := exists_commonIndent hl hblank
    obtain ⟨hbody, hbody'⟩ := hmem l₀ hl₀ hblank₀
    rw [← hindent, ← indentOf_body indent hblank₀]
    exact commonIndent_le hbody hbody'
  · obtain ⟨hbody, hbody'⟩ := hmem l hl hblank
    obtain ⟨l₀, hl₀, hblank₀, hindent⟩ := exists_commonIndent hbody hbody'
    rcases List.mem_append.mp hl₀ with hl₀ | hl₀
    · obtain ⟨_, hb, rfl⟩ := List.mem_map.mp hl₀
      obtain ⟨l₁, hl₁, rfl⟩ := List.mem_map.mp hb
      rw [blank_dropReturn, isBlankLine_body] at hblank₀
      rw [← hindent, indentOf_body indent hblank₀]
      exact Nat.add_le_add_left (commonIndent_le hl₁ hblank₀) _
    · rw [htail l₀ hl₀] at hblank₀
      cases hblank₀

theorem isBlankLine_outdent {n : Nat} (h : isBlankLine l) : isBlankLine (outdent n l) := by
  unfold outdent
  split
  · exact isBlankLine_of_suffix (dropBytes_suffix n l) h
  · exact h

/-- A line of a block without the shared indent. -/
theorem outdent_body (indent : Nat) {n : Nat} (h : isBlankLine l = false → n ≤ indentOf l) :
    outdent (indent + 2 + n) (dropReturn (body indent l)) = escapeQuotes (relaid n l) := by
  unfold relaid
  cases hblank : isBlankLine l with
  | true =>
      rw [body, hblank, if_pos rfl, if_pos rfl]
      unfold outdent
      split <;> rfl
  | false =>
      have hne : escapeQuotes l ≠ [] := escapeQuotes_ne_nil (by rintro rfl; cases hblank)
      have hle : indent + 2 + n ≤ byteLength (dropReturn (body indent l)) := by
        refine le_trans ?_ (indentOf_le _)
        rw [indentOf_body indent hblank]
        exact Nat.add_le_add_left (h hblank) _
      rw [outdent, if_pos hle, body, hblank, if_neg (by decide), if_neg (by decide),
        dropReturn_append _ hne, dropBytes_spaces, dropReturn_escapeQuotes, dropBytes_escapeQuotes]
      exact (indentOf_dropReturn hblank).symm ▸ h hblank

/-! ## Blank lines at the ends -/

theorem trimLines_eq (ls : List Line) :
    trimLines ls = (ls.dropWhile isBlankLine).rdropWhile isBlankLine := rfl

theorem trimLines_append {ls ms : List Line} (h : ∀ l ∈ ms, isBlankLine l) :
    trimLines (ls ++ ms) = trimLines ls := by
  have hms : ms.dropWhile isBlankLine = [] := List.dropWhile_eq_nil_iff.mpr h
  have hms' : ms.reverse.dropWhile isBlankLine = [] :=
    List.dropWhile_eq_nil_iff.mpr fun l hl => h l (List.mem_reverse.mp hl)
  rw [trimLines_eq, trimLines_eq, List.dropWhile_append, hms]
  split
  · rename_i hls
    rw [List.isEmpty_iff.mp hls]
  · rw [List.rdropWhile, List.rdropWhile, List.reverse_append, List.dropWhile_append, hms',
      List.isEmpty_nil, if_pos rfl]

theorem trimLines_map {f : Line → Line} (h : ∀ l, isBlankLine (f l) = isBlankLine l)
    (ls : List Line) : trimLines (ls.map f) = (trimLines ls).map f := by
  have hf : isBlankLine ∘ f = isBlankLine := funext h
  rw [trimLines, trimLines, List.dropWhile_map, hf, ← List.map_reverse, List.dropWhile_map, hf,
    ← List.map_reverse]

theorem trimLines_blank (h : ∀ l ∈ ls, isBlankLine l) : trimLines ls = [] := by
  rw [← List.nil_append ls, trimLines_append h]
  rfl

theorem mem_escapeQuotes {c : Char} (h : c ∈ escapeQuotes l) : c = '\\' ∨ c ∈ l := by
  induction l using escapeQuotes.induct with
  | case1 l ih =>
      rw [escapeQuotes] at h
      simp only [List.mem_cons] at h ⊢
      tauto
  | case2 d l hother ih =>
      rw [escapeQuotes] at h
      · simp only [List.mem_cons] at h ⊢
        tauto
      · exact hother
  | case3 => cases h

theorem not_mem_body (indent : Nat) (h : '\n' ∉ l) : '\n' ∉ body indent l := by
  unfold body
  split
  · exact List.not_mem_nil
  · rw [List.mem_append, not_or, List.mem_replicate]
    refine ⟨fun hspace => absurd hspace.2 (by decide), fun hmem => ?_⟩
    exact (mem_escapeQuotes hmem).elim (by decide) h

theorem isBlankLine_of_mem_lines_spaces (indent : Nat)
    (hl : l ∈ Text.lines (List.replicate indent ' ')) : isBlankLine l := by
  have hspaces : '\n' ∉ List.replicate indent ' ' :=
    fun hmem => absurd (List.mem_replicate.mp hmem).2 (by decide)
  rw [lines_last hspaces] at hl
  split at hl
  · cases hl
  · rw [List.mem_singleton.mp hl]
    exact isBlankLine_spaces indent

/-- Outdented and without blank lines at its ends, a block has the lines of its text again. -/
theorem trimLines_outdent (indent : Nat) {tail : List Line} (htail : ∀ l ∈ tail, isBlankLine l)
    (ls : List Line) :
    (trimLines (((ls.map (body indent)).map dropReturn).map
      (outdent (commonIndent ((ls.map (body indent)).map dropReturn ++ tail))))).map
        unescapeQuotes = trimLines (ls.map (relaid (commonIndent ls))) := by
  by_cases hsome : ∃ l ∈ ls, isBlankLine l = false
  · obtain ⟨l, hl, hblank⟩ := hsome
    have hbody : ((ls.map (body indent)).map dropReturn).map
        (outdent (indent + 2 + commonIndent ls)) =
          (ls.map (relaid (commonIndent ls))).map escapeQuotes := by
      rw [List.map_map, List.map_map, List.map_map]
      exact List.map_congr_left fun l hl => outdent_body indent (commonIndent_le hl)
    rw [commonIndent_body indent htail hl hblank, hbody, trimLines_map isBlankLine_escapeQuotes,
      List.map_map, funext (f := unescapeQuotes ∘ escapeQuotes) unescapeQuotes_escapeQuotes]
    exact List.map_id _
  · -- the lines share no indent then, but nothing is left of them
    have hblank : ∀ l ∈ ls, isBlankLine l := by simpa using hsome
    rw [trimLines_blank, trimLines_blank]
    · rfl
    · intro _ hrelaid
      obtain ⟨l, hl, rfl⟩ := List.mem_map.mp hrelaid
      rw [relaid, if_pos (hblank l hl)]
      rfl
    · intro _ hbody
      rw [List.map_map, List.map_map] at hbody
      obtain ⟨l, hl, rfl⟩ := List.mem_map.mp hbody
      refine isBlankLine_outdent ?_
      rw [blank_dropReturn, isBlankLine_body]
      exact hblank l hl

/-- What a text that is laid out as a block is read as. -/
theorem decode_inner (indent : Nat) (cs : List Char) :
    decode (inner indent cs) =
      Text.join ['\n']
        (trimLines ((Text.lines cs).map (relaid (commonIndent (Text.lines cs))))) := by
  have hlines : ∀ l ∈ (Text.lines cs).map (body indent), '\n' ∉ l := by
    intro _ hbody
    obtain ⟨l, hl, rfl⟩ := List.mem_map.mp hbody
    exact not_mem_body indent (not_mem_of_mem_lines l hl)
  have htail : ∀ l ∈ Text.lines (List.replicate indent ' '), isBlankLine l :=
    fun _ => isBlankLine_of_mem_lines_spaces indent
  unfold decode
  rw [inner_eq, Text.lines, lines_flatMap hlines]
  dsimp only
  -- the first line is empty and the last is blank, so both are trimmed
  have houter : ∀ ms : List Line, trimLines ([] :: ms) = trimLines ms := fun ms => rfl
  rw [houter, List.map_append, trimLines_append, trimLines_outdent indent htail]
  intro _ houtdent
  obtain ⟨l, hl, rfl⟩ := List.mem_map.mp houtdent
  exact isBlankLine_outdent (htail l hl)

/-! ## Texts that come back -/

/-- Whether a text that is laid out as a block comes back as it is: it neither begins nor ends with
a blank line, its blank lines are empty, no line ends with a carriage return, and some line has no
indent. -/
structure Kept (cs : List Char) : Prop where
  first : ∀ l ∈ (Text.split '\n' cs).head?, isBlankLine l = false
  last : ∀ l ∈ (Text.split '\n' cs).getLast?, isBlankLine l = false
  blank : ∀ l ∈ Text.split '\n' cs, isBlankLine l → l = []
  returns : ∀ l ∈ Text.split '\n' cs, l.getLast? ≠ some '\r'
  indent : ∃ l ∈ Text.split '\n' cs, isBlankLine l = false ∧ indentOf l = 0

theorem exists_split (cs : List Char) : ∃ pieces last, Text.split '\n' cs = pieces ++ [last] :=
  ⟨_, _, (List.dropLast_append_getLast (Text.split_ne_nil '\n' cs)).symm⟩

theorem trimLines_eq_self (hfirst : ∀ l ∈ ls.head?, isBlankLine l = false)
    (hlast : ∀ l ∈ ls.getLast?, isBlankLine l = false) : trimLines ls = ls := by
  have hdrop : ∀ ls : List Line, (∀ l ∈ ls.head?, isBlankLine l = false) →
      ls.dropWhile isBlankLine = ls := by
    intro ls h
    cases ls with
    | nil => rfl
    | cons l ls => rw [List.dropWhile_cons_of_neg (by simpa using h l rfl)]
  rw [trimLines, hdrop ls hfirst, hdrop, List.reverse_reverse]
  rwa [List.head?_reverse]

/-- The first line that is left is not blank, and the last neither. -/
theorem ends_trimLines (ls : List Line) : (∀ l ∈ (trimLines ls).head?, isBlankLine l = false) ∧
    ∀ l ∈ (trimLines ls).getLast?, isBlankLine l = false := by
  rw [trimLines_eq]
  constructor
  · intro l hl
    have hfirst := List.head?_dropWhile_not isBlankLine ls
    obtain ⟨ms, hms⟩ := List.rdropWhile_prefix isBlankLine (ls.dropWhile isBlankLine)
    rw [← hms, List.head?_append, hl] at hfirst
    exact hfirst
  · intro l hl
    obtain ⟨ms, hms⟩ := List.getLast?_eq_some_iff.mp hl
    have hne : (ls.dropWhile isBlankLine).rdropWhile isBlankLine ≠ [] := by simp [hms]
    have hlast := List.rdropWhile_last_not isBlankLine (ls.dropWhile isBlankLine) hne
    rw [List.getLast?_eq_some_getLast hne] at hl
    rw [Option.some.inj hl] at hlast
    exact Bool.eq_false_iff.mpr hlast

theorem trimLines_sublist (ls : List Line) : (trimLines ls).Sublist ls :=
  (List.rdropWhile_prefix _ _).sublist.trans (List.dropWhile_sublist _)

theorem Kept.decode_inner (h : Kept cs) (indent : Nat) : decode (inner indent cs) = cs := by
  obtain ⟨pieces, last, hsplit⟩ := exists_split cs
  have hreturns := h.returns
  have hlast : last ≠ [] := by
    have := h.last last (by rw [hsplit]; simp)
    rintro rfl
    cases this
  have hlines : Text.lines cs = Text.split '\n' cs := by
    rw [hsplit, List.forall_mem_append] at hreturns
    rw [lines_eq hsplit, if_neg hlast, hsplit]
    congr 1
    conv_rhs => rw [← List.map_id pieces]
    exact List.map_congr_left fun l hl => dropReturn_eq_self_iff.mpr (hreturns.1 l hl)
  have hindent : commonIndent (Text.split '\n' cs) = 0 := by
    obtain ⟨l, hl, hblank, hzero⟩ := h.indent
    have hle := commonIndent_le hl hblank
    rw [hzero] at hle
    exact Nat.le_zero.mp hle
  have hrelaid : (Text.split '\n' cs).map (relaid 0) = Text.split '\n' cs := by
    conv_rhs => rw [← List.map_id (Text.split '\n' cs)]
    refine List.map_congr_left fun l hl => ?_
    unfold relaid
    split
    · rename_i hblank
      rw [h.blank l hl hblank]
      rfl
    · rw [dropBytes_zero, dropReturn_eq_self_iff.mpr (hreturns l hl)]
      rfl
  rw [BlockString.decode_inner, hlines, hindent, hrelaid, trimLines_eq_self h.first h.last,
    Text.join_split]

/-- A line that comes back, as it was printed or without a return at its end, had no return and lost
no indent. -/
theorem eq_of_relaid {l' : Line} {m : Nat} (hl' : l' = dropReturn l ∨ l' = l) (h : relaid m l' = l)
    (hblank : isBlankLine l = false) : l' = l ∧ l.getLast? ≠ some '\r' ∧ m = 0 := by
  have hblank' : isBlankLine l' = false := by
    rcases hl' with rfl | rfl
    · rwa [blank_dropReturn]
    · exact hblank
  have hne : l' ≠ [] := by
    rintro rfl
    cases hblank'
  rw [relaid, hblank', if_neg (by decide)] at h
  have hdrop := (dropBytes_suffix m (dropReturn l')).length_le
  have hreturn := length_dropReturn_le l'
  have hline : l'.length ≤ l.length := by
    rcases hl' with rfl | rfl
    · exact length_dropReturn_le l
    · exact Nat.le_refl _
  rw [h] at hdrop
  have hself : dropReturn l' = l' := (dropReturn_isPrefix l').eq_of_length (by omega)
  have heq : l' = l := by
    rcases hl' with rfl | rfl
    · exact (dropReturn_isPrefix l).eq_of_length (by omega)
    · rfl
  subst heq
  rw [hself] at h
  exact ⟨rfl, dropReturn_eq_self_iff.mp hself, eq_zero_of_dropBytes hne (congrArg List.length h)⟩

/-- The pieces of a text that comes back are the lines that are left of it. -/
theorem split_eq_trimLines {m : Nat} (hfeed : '\n' ∈ cs)
    (h : Text.join ['\n'] (trimLines ((Text.lines cs).map (relaid m))) = cs) :
    Text.split '\n' cs = trimLines ((Text.lines cs).map (relaid m)) := by
  have hne : trimLines ((Text.lines cs).map (relaid m)) ≠ [] := by
    intro hnil
    rw [hnil] at h
    rw [← h] at hfeed
    cases hfeed
  have hlines : ∀ l ∈ trimLines ((Text.lines cs).map (relaid m)), '\n' ∉ l := by
    intro l hl
    obtain ⟨l, hl', rfl⟩ := List.mem_map.mp ((trimLines_sublist _).subset hl)
    unfold relaid
    split
    · exact List.not_mem_nil
    · intro hmem
      exact not_mem_of_mem_lines l hl'
        ((dropReturn_isPrefix l).subset ((dropBytes_suffix _ _).subset hmem))
  rw [← Text.split_join hne hlines, h]

/-- In a text that comes back no line is left out, and each is read from itself. -/
theorem split_eq_map_relaid {m : Nat}
    (h : Text.split '\n' cs = trimLines ((Text.lines cs).map (relaid m))) :
    Text.split '\n' cs = (Text.lines cs).map (relaid m) ∧
      ∀ l ∈ Text.split '\n' cs, ∃ l', (l' = dropReturn l ∨ l' = l) ∧ relaid m l' = l := by
  obtain ⟨pieces, last, hpieces⟩ := exists_split cs
  have hlast : last ≠ [] := by
    rintro rfl
    have := (ends_trimLines ((Text.lines cs).map (relaid m))).2 [] (by rw [← h, hpieces]; simp)
    cases this
  have hlines := lines_eq hpieces
  rw [if_neg hlast] at hlines
  have heq : Text.split '\n' cs = (Text.lines cs).map (relaid m) := by
    have hsublist := trimLines_sublist ((Text.lines cs).map (relaid m))
    rw [← h] at hsublist
    refine hsublist.eq_of_length ?_
    rw [hpieces, hlines]
    simp
  refine ⟨heq, ?_⟩
  rw [hpieces, hlines, List.map_append] at heq
  obtain ⟨hinit, hend⟩ := List.append_inj' heq rfl
  rw [List.map_map] at hinit
  rw [hpieces, List.forall_mem_append, List.forall_mem_singleton]
  refine ⟨fun l hl => ⟨dropReturn l, .inl rfl, ?_⟩, last, .inr rfl, ?_⟩
  · exact (List.map_inj_left.mp ((List.map_id pieces).trans hinit) l hl).symm
  · exact (List.cons.inj hend).1.symm

/-- A text with a line feed that comes back is of this kind. -/
theorem kept_of_decode_inner {indent : Nat} (hfeed : '\n' ∈ cs)
    (h : decode (inner indent cs) = cs) : Kept cs := by
  rw [decode_inner] at h
  generalize hm : commonIndent (Text.lines cs) = m at h
  have hsplit := split_eq_trimLines hfeed h
  obtain ⟨heq, hline⟩ := split_eq_map_relaid hsplit
  obtain ⟨hfirst, hlast⟩ := ends_trimLines ((Text.lines cs).map (relaid m))
  rw [← hsplit] at hfirst hlast
  have hblank : ∀ l ∈ Text.split '\n' cs, isBlankLine l → l = [] := by
    intro l hl hblank
    obtain ⟨l', hl', hrelaid⟩ := hline l hl
    have hblank' : isBlankLine l' := by
      rcases hl' with rfl | rfl
      · rwa [blank_dropReturn]
      · exact hblank
    rw [← hrelaid, relaid, if_pos hblank']
  refine ⟨hfirst, hlast, hblank, fun l hl => ?_, ?_⟩
  · cases hl' : isBlankLine l with
    | true => rw [hblank l hl hl']; exact nofun
    | false =>
        obtain ⟨l', hl'', hrelaid⟩ := hline l hl
        exact (eq_of_relaid hl'' hrelaid hl').2.1
  · -- the first line has lost no indent, so that some line has none
    obtain ⟨l, hl⟩ : ∃ l, (Text.split '\n' cs).head? = some l :=
      Option.isSome_iff_exists.mp (by simpa using Text.split_ne_nil '\n' cs)
    have hmem := List.mem_of_mem_head? hl
    obtain ⟨_, hl', hrelaid⟩ := hline l hmem
    obtain ⟨_, _, rfl⟩ := eq_of_relaid hl' hrelaid (hfirst l hl)
    obtain ⟨l₀, hl₀, rfl⟩ := List.mem_map.mp (heq ▸ hmem)
    have hblank₀ : isBlankLine l₀ = false := by
      by_contra hblank₀
      have := hfirst _ hl
      rw [relaid, if_pos (Bool.eq_true_of_not_eq_false hblank₀)] at this
      cases this
    obtain ⟨l₁, hl₁, hblank₁, hindent⟩ := exists_commonIndent hl₀ hblank₀
    refine ⟨relaid 0 l₁, heq ▸ List.mem_map_of_mem hl₁, ?_, ?_⟩
    · rw [relaid, hblank₁, if_neg (by decide), dropBytes_zero, blank_dropReturn, hblank₁]
    · rw [relaid, hblank₁, if_neg (by decide), dropBytes_zero, indentOf_dropReturn hblank₁, hindent,
        hm]

theorem decode_inner_iff (hfeed : '\n' ∈ cs) (indent : Nat) :
    decode (inner indent cs) = cs ↔ Kept cs :=
  ⟨kept_of_decode_inner hfeed, fun h => h.decode_inner indent⟩

end Composables.Graphql.BlockString
