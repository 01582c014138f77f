import Composables.Graphql.Parser
import Composables.Proofs.Outcome

/-
  Parsers that take given tokens. Where the tokens of a text are known, a parser is followed token
  by token: `Takes` says what it gives for them, if what comes next does not run on.
-/

namespace Composables.Graphql

namespace Parser

variable {α β γ : Type} {p : Parser α} {starts : Token → Bool} {ts us : List (Option Token)}
  {P P' : α → Prop} {Q : β → Prop} {Next Next' : Token → Prop}

/-- The tokens of a list of lexemes. -/
def tokensOf (ls : List Lexeme) : List (Option Token) := ls.map fun l => some l.token

/-- The first token, if there is one, is of one kind. -/
def Follows (Next : Token → Prop) (us : List (Option Token)) : Prop :=
  ∀ t, us.head? = some (some t) → Next t

/-- A parser takes the given tokens in front of others, and what it gives is of one kind. What may
come next is restricted. -/
def Takes (p : Parser α) (ts : List (Option Token)) (Next : Token → Prop) (P : α → Prop) : Prop :=
  ∀ ls us, tokensOf ls = ts ++ us → Follows Next us →
    ∃ a rest, p ls = .ok (a, rest) ∧ tokensOf rest = us ∧ P a

/-- Anything may come next. -/
def Any : Token → Prop := fun _ => True

/-- None of these symbols comes next. -/
def Avoids (cs : List Char) (t : Token) : Prop := ∀ c ∈ cs, t ≠ .symbol c

theorem Avoids.mono {cs ds : List Char} {t : Token} (h : Avoids ds t) (hsubset : cs ⊆ ds) :
    Avoids cs t :=
  fun c hc => h c (hsubset hc)

theorem follows_any (us : List (Option Token)) : Follows Any us := fun _ _ => trivial

theorem Follows.mono (h : Follows Next us) (hnext : ∀ t, Next t → Next' t) : Follows Next' us :=
  fun t ht => hnext t (h t ht)

theorem follows_cons {t : Token} (h : Next t) : Follows Next (some t :: us) := by
  intro t' ht
  cases ht
  exact h

/-- The first of some tokens, if it is read at all, is one that a parser looks for. -/
def Begins (starts : Token → Bool) (ts : List (Option Token)) : Prop :=
  ∃ o us, ts = o :: us ∧ ∀ t ∈ o, starts t

theorem begins_cons {t : Token} (h : starts t) : Begins starts (some t :: ts) := by
  refine ⟨some t, ts, rfl, ?_⟩
  rintro _ ⟨⟩
  exact h

theorem Begins.follows (h : Begins starts ts) (hnext : ∀ t, starts t → Next t) :
    Follows Next (ts ++ us) := by
  obtain ⟨o, vs, rfl, ho⟩ := h
  rintro t ⟨⟩
  exact hnext t (ho t rfl)

theorem follows_flatMap {xs : List β} {tokens : β → List (Option Token)}
    (hstarts : ∀ x ∈ xs, Begins starts (tokens x)) (hagain : ∀ t, starts t → Next t)
    (hus : Follows (fun t => Next t ∧ starts t = false) us) :
    Follows Next (xs.flatMap tokens ++ us) := by
  cases xs with
  | nil => exact hus.mono fun t ht => ht.1
  | cons x xs =>
      rw [List.flatMap_cons, List.append_assoc]
      exact (hstarts x List.mem_cons_self).follows hagain

theorem tokensOf_eq_cons {ls : List Lexeme} {o : Option Token} (h : tokensOf ls = o :: us) :
    ∃ l ls', ls = l :: ls' ∧ o = some l.token ∧ tokensOf ls' = us := by
  obtain ⟨l, ls', rfl, hl, htail⟩ := List.map_eq_cons_iff.mp h
  exact ⟨l, ls', rfl, hl.symm, htail⟩

theorem length_tokensOf (ls : List Lexeme) : (tokensOf ls).length = ls.length := List.length_map _

namespace Takes

theorem pure {a : α} (h : P a) : Takes (Pure.pure a) [] Next P := by
  intro ls us hls _
  exact ⟨a, ls, rfl, hls, h⟩

theorem bind {f : α → Parser β} (hp : Takes p ts Next P) (hf : ∀ a, P a → Takes (f a) us Next' Q)
    (hnext : ∀ vs, Follows Next' vs → Follows Next (us ++ vs)) :
    Takes (p >>= f) (ts ++ us) Next' Q := by
  intro ls vs hls hvs
  rw [List.append_assoc] at hls
  obtain ⟨a, mid, ha, hmid, hPa⟩ := hp ls _ hls (hnext vs hvs)
  obtain ⟨b, rest, hb, hrest, hQb⟩ := hf a hPa mid vs hmid hvs
  exact ⟨b, rest, Outcome.bind_eq_ok.mpr ⟨(a, mid), ha, hb⟩, hrest, hQb⟩

/-- Before a parser that anything may follow. -/
theorem next {f : α → Parser β} (hp : Takes p ts Any P) (hf : ∀ a, P a → Takes (f a) us Next' Q) :
    Takes (p >>= f) (ts ++ us) Next' Q :=
  hp.bind hf fun _ _ => follows_any _

theorem map {f : α → β} (hp : Takes p ts Next P) (h : ∀ a, P a → Q (f a)) :
    Takes (do return f (← p)) ts Next Q := by
  intro ls us hls hus
  obtain ⟨a, rest, ha, hrest, hPa⟩ := hp ls us hls hus
  exact ⟨f a, rest, Outcome.bind_eq_ok.mpr ⟨(a, rest), ha, rfl⟩, hrest, h a hPa⟩

theorem mono (hp : Takes p ts Next P) (h : ∀ a, P a → P' a) (hnext : ∀ t, Next' t → Next t) :
    Takes p ts Next' P' := by
  intro ls us hls hus
  obtain ⟨a, rest, ha, hrest, hPa⟩ := hp ls us hls (hus.mono hnext)
  exact ⟨a, rest, ha, hrest, h a hPa⟩

theorem peek? {t : Token} {f : Option Token → Parser β}
    (h : Takes (f (some t)) (some t :: ts) Next Q) :
    Takes (Parser.peek? >>= f) (some t :: ts) Next Q := by
  intro ls us hls hus
  obtain ⟨b, rest, hb, hrest, hQb⟩ := h ls us hls hus
  obtain ⟨l, ls, rfl, hl, _⟩ := tokensOf_eq_cons hls
  cases hl
  exact ⟨b, rest, hb, hrest, hQb⟩

theorem skip (o : Option Token) : Takes Parser.skip [o] Any fun _ => True := by
  intro ls us hls _
  obtain ⟨l, ls, rfl, _, htail⟩ := tokensOf_eq_cons hls
  exact ⟨(), ls, rfl, htail, trivial⟩

theorem position {f : Position → Parser β} (h : ∀ x, Takes (f x) ts Next Q) :
    Takes (Parser.position >>= f) ts Next Q :=
  fun ls us hls hus => h _ ls us hls hus

theorem expect (t : Token) : Takes (Parser.expect t) [some t] Any fun _ => True := by
  intro ls us hls _
  obtain ⟨l, ls, rfl, hl, htail⟩ := tokensOf_eq_cons hls
  cases hl
  exact ⟨(), ls, if_pos rfl, htail, trivial⟩

theorem symbol (c : Char) : Takes (Parser.symbol c) [some (.symbol c)] Any fun _ => True :=
  expect _

theorem name (s : String) : Takes Parser.name [some (.name s)] Any (· = s) := by
  intro ls us hls _
  obtain ⟨⟨p, t⟩, ls, rfl, hl, htail⟩ := tokensOf_eq_cons hls
  cases hl
  exact ⟨s, ls, rfl, htail, rfl⟩

theorem accept (t : Token) : Takes (Parser.accept t) [some t] Any (· = true) := by
  intro ls us hls _
  obtain ⟨l, ls, rfl, hl, htail⟩ := tokensOf_eq_cons hls
  cases hl
  exact ⟨true, ls, if_pos rfl, htail, rfl⟩

theorem refuse {t : Token} {f : Bool → Parser β} (h : Takes (f false) ts Next Q)
    (hnext : ∀ us, Follows Next us → Follows (· ≠ t) (ts ++ us)) :
    Takes (Parser.accept t >>= f) ts Next Q := by
  intro ls us hls hus
  obtain ⟨b, rest, hb, hrest, hQb⟩ := h ls us hls hus
  refine ⟨b, rest, Outcome.bind_eq_ok.mpr ⟨(false, ls), ?_, hb⟩, hrest, hQb⟩
  cases ls with
  | nil => rfl
  | cons l ls => exact if_neg (hnext us hus l.token (by rw [← hls]; rfl))

theorem optional (hp : Takes p ts Next P) (h : Begins starts ts) :
    Takes (Parser.optional starts p) ts Next fun x => ∃ a, x = some a ∧ P a := by
  intro ls us hls hus
  obtain ⟨o, ts, rfl, ho⟩ := h
  obtain ⟨a, rest, ha, hrest, hPa⟩ := hp ls us hls hus
  obtain ⟨l, ls, rfl, rfl, _⟩ := tokensOf_eq_cons hls
  refine ⟨some a, rest, ?_, hrest, a, rfl, hPa⟩
  unfold Parser.optional
  dsimp only
  rw [if_pos (ho l.token rfl), ha]
  rfl

theorem absent : Takes (Parser.optional starts p) [] (fun t => starts t = false) (· = none) := by
  intro ls us hls hus
  cases ls with
  | nil => exact ⟨none, [], rfl, hls, rfl⟩
  | cons l ls =>
      subst hls
      refine ⟨none, l :: ls, if_neg ?_, rfl, rfl⟩
      rw [hus l.token rfl]
      decide

theorem missing {f : Option α → Parser β} (h : Takes (f none) ts Next Q)
    (hnext : ∀ us, Follows Next us → Follows (fun t => starts t = false) (ts ++ us)) :
    Takes (Parser.optional starts p >>= f) ts Next Q := by
  rw [← List.nil_append ts]
  refine absent.bind ?_ hnext
  rintro _ rfl
  exact h

/-- What a parser takes again and again, in front of something that it does not begin with. -/
theorem many {xs : List β} {tokens : β → List (Option Token)} (left : α → γ) (right : β → γ)
    (hp : ∀ x ∈ xs, Takes p (tokens x) Next fun a => left a = right x)
    (hstarts : ∀ x ∈ xs, Begins starts (tokens x))
    (hagain : ∀ t, starts t → Next t) :
    Takes (Parser.many starts p) (xs.flatMap tokens) (fun t => Next t ∧ starts t = false)
      fun as => as.map left = xs.map right := by
  induction xs with
  | nil =>
      intro ls us hls hus
      cases ls with
      | nil => exact ⟨[], [], by rw [Parser.many], hls, rfl⟩
      | cons l ls =>
          rw [List.flatMap_nil, List.nil_append] at hls
          subst hls
          refine ⟨[], l :: ls, ?_, rfl, rfl⟩
          rw [Parser.many, if_neg]
          rw [(hus l.token rfl).2]
          decide
  | cons x xs ih =>
      intro ls us hls hus
      rw [List.forall_mem_cons] at hp hstarts
      rw [List.flatMap_cons, List.append_assoc] at hls
      -- each begins with a token of its own, so less is left behind it
      obtain ⟨o, ts, hx, ho⟩ := hstarts.1
      obtain ⟨a, mid, ha, hmid, hPa⟩ := hp.1 ls _ hls (follows_flatMap hstarts.2 hagain hus)
      obtain ⟨as, rest, has, hrest, hPas⟩ := ih hp.2 hstarts.2 mid us hmid hus
      rw [hx, List.cons_append] at hls
      obtain ⟨l, ls, rfl, rfl, htail⟩ := tokensOf_eq_cons hls
      have hlength : mid.length ≤ ls.length := by
        rw [← length_tokensOf mid, ← length_tokensOf ls, hmid, htail, List.length_append,
          List.length_append, List.length_append]
        omega
      refine ⟨a :: as, rest, ?_, hrest, congrArg₂ List.cons hPa hPas⟩
      rw [Parser.many, if_pos (ho l.token rfl), ha]
      dsimp only
      rw [if_pos hlength, has]
      rfl

theorem many1 {xs : List β} {tokens : β → List (Option Token)} (left : α → γ) (right : β → γ)
    (hne : xs ≠ []) (hp : ∀ x ∈ xs, Takes p (tokens x) Next fun a => left a = right x)
    (hstarts : ∀ x ∈ xs, Begins starts (tokens x))
    (hagain : ∀ t, starts t → Next t) :
    Takes (Parser.many1 starts p) (xs.flatMap tokens) (fun t => Next t ∧ starts t = false)
      fun as => as.map left = xs.map right := by
  obtain ⟨x, xs, rfl⟩ := List.exists_cons_of_ne_nil hne
  rw [List.forall_mem_cons] at hp hstarts
  rw [List.flatMap_cons]
  refine hp.1.bind (fun a ha => ?_) fun vs hvs => follows_flatMap hstarts.2 hagain hvs
  exact (many left right hp.2 hstarts.2 hagain).map fun as has => congrArg₂ List.cons ha has

/-- What a parser takes again and again, if it gives one thing for each list of tokens. -/
theorem many_eq {xs : List β} {tokens : β → List (Option Token)} (f : β → α)
    (hp : ∀ x ∈ xs, Takes p (tokens x) Next (· = f x))
    (hstarts : ∀ x ∈ xs, Begins starts (tokens x)) (hagain : ∀ t, starts t → Next t) :
    Takes (Parser.many starts p) (xs.flatMap tokens) (fun t => Next t ∧ starts t = false)
      (· = xs.map f) :=
  (many id f hp hstarts hagain).mono (fun as has => (List.map_id as).symm.trans has) fun _ h => h

theorem many1_eq {xs : List β} {tokens : β → List (Option Token)} (f : β → α) (hne : xs ≠ [])
    (hp : ∀ x ∈ xs, Takes p (tokens x) Next (· = f x))
    (hstarts : ∀ x ∈ xs, Begins starts (tokens x)) (hagain : ∀ t, starts t → Next t) :
    Takes (Parser.many1 starts p) (xs.flatMap tokens) (fun t => Next t ∧ starts t = false)
      (· = xs.map f) :=
  (many1 id f hne hp hstarts hagain).mono (fun as has => (List.map_id as).symm.trans has)
    fun _ h => h

end Takes

end Parser

end Composables.Graphql
