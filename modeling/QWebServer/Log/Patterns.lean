import QWebServer.Log.Grammar

/-!
# Writing patterns, and putting patterns together

* `elements_unique` : a pattern has the elements of the grammar in one way only;
* `Elem.Known`, `print` : the elements a pattern can have, and the pattern that is written from elements, `%%` for a
  percent sign and braces behind every item; `print_iff` : it has exactly these elements, and no element beyond those is
  in any pattern;
* `EndsBare` : a pattern ends with an item without braces, `append_iff` : two patterns put together have the elements of
  both unless the second one goes on with the item at the end of the first one.
-/

namespace QWebServer

/-! ## The elements of a pattern -/

def Piece.elements : Piece → List Elem
  | .text s => s.map .char
  | .item str f => str.map fun x => .item x f

theorem flatMap_prepend (c : Char) (ps : List Piece) :
    (prepend c ps).flatMap Piece.elements = .char c :: ps.flatMap Piece.elements := by
  unfold prepend
  split <;> rfl

theorem flatMap_merge (es : List Elem) : (merge es).flatMap Piece.elements = es := by
  induction es with
  | nil => rfl
  | cons e es ih =>
    cases e with
    | item x f =>
      rw [merge, List.flatMap_cons, ih]
      rfl
    | char c =>
      rw [merge, flatMap_prepend, ih]

/-- **A pattern has its elements in one way only.** -/
theorem elements_unique {p : Text} {es es' : List Elem} (h : Grammar p es) (h' : Grammar p es') : es = es' := by
  have hmerge : merge es = merge es' := by
    have hpieces := pieces_grammar h p.length [] (Nat.le_refl _)
    rw [pieces_grammar h' p.length [] (Nat.le_refl _)] at hpieces
    exact (Prod.ext_iff.mp hpieces).1.symm
  rw [← flatMap_merge es, hmerge, flatMap_merge]

/-- `init` makes of a pattern in the grammar items without an error, which write what the elements write. -/
theorem formats_of_grammar {p : Text} {es : List Elem} (h : Grammar p es) :
    (LogFormatter.mk p).run.2 = false ∧ ∀ strftime logger level event,
      (LogFormatter.mk p).format strftime logger level event =
        es.flatMap (Elem.format strftime logger level event) := by
  have hpieces : pieces p.length p [] = (merge es, false) := pieces_grammar h p.length [] (Nat.le_refl _)
  refine ⟨?_, fun strftime logger level event => ?_⟩
  · rw [LogFormatter.run_eq, LogFormatter.init, hpieces, Bool.false_or, List.any_eq_false]
    intro q hq
    rw [h.toItem q hq]
    exact Bool.false_ne_true
  · rw [← formatPieces_merge strftime logger level event fun x f hx => h.letter hx, LogFormatter.format,
      LogFormatter.items, LogFormatter.init, hpieces, List.flatMap_map]
    rfl

/-! ## Writing a pattern -/

def Elem.print : Elem → Text
  | char c => if c = '%' then ['%', '%'] else [c]
  | item x f => '%' :: x :: '\x7b' :: (f ++ ['\x7d'])

/-- The elements that a pattern can have: characters, and letters of `s_format_item` with a text without a closing
brace. -/
def Elem.Known : Elem → Prop
  | char _ => True
  | item x f => x ∈ formatLetters ∧ '\x7d' ∉ f

def print (es : List Elem) : Text := es.flatMap Elem.print

theorem grammar_print {es : List Elem} (h : ∀ e ∈ es, e.Known) : Grammar (print es) es := by
  induction es with
  | nil => exact .nil
  | cons e es ih =>
    have hrest := ih fun e' he' => h e' (List.mem_cons_of_mem e he')
    cases e with
    | char c =>
      show Grammar ((if c = '%' then ['%', '%'] else [c]) ++ print es) _
      by_cases hc : c = '%'
      · rw [if_pos hc, hc]
        exact .escape hrest
      · rw [if_neg hc]
        exact .ordinary hc hrest
    | item x f =>
      obtain ⟨hx, hf⟩ : x ∈ formatLetters ∧ '\x7d' ∉ f := h _ List.mem_cons_self
      have hprint : print (.item x f :: es) = '%' :: x :: '\x7b' :: (f ++ '\x7d' :: print es) := by
        show '%' :: x :: '\x7b' :: (f ++ ['\x7d']) ++ print es = _
        simp
      rw [hprint]
      exact .braced hx hf hrest

theorem Grammar.known {p : Text} {es : List Elem} (h : Grammar p es) : ∀ e ∈ es, e.Known := by
  induction h with
  | nil => exact fun e he => absurd he List.not_mem_nil
  | ordinary _ _ ih => exact List.forall_mem_cons.mpr ⟨trivial, ih⟩
  | escape _ ih => exact List.forall_mem_cons.mpr ⟨trivial, ih⟩
  | bare hx _ _ ih => exact List.forall_mem_cons.mpr ⟨⟨hx, List.not_mem_nil⟩, ih⟩
  | braced hx hf _ ih => exact List.forall_mem_cons.mpr ⟨⟨hx, hf⟩, ih⟩

/-- **Every sequence of texts and items has a pattern**, one that has no other elements and formats as they do. Letters
that `s_format_item` does not have, and a closing brace in the text of an item, are in no pattern. -/
theorem print_iff (es : List Elem) :
    ((∀ e ∈ es, e.Known) ↔ ∃ p, Grammar p es) ∧
      ((∀ e ∈ es, e.Known) → (∀ es', Grammar (print es) es' ↔ es' = es) ∧
        (LogFormatter.mk (print es)).run.2 = false ∧ ∀ strftime logger level event,
          (LogFormatter.mk (print es)).format strftime logger level event =
            es.flatMap (Elem.format strftime logger level event)) := by
  refine ⟨⟨fun h => ⟨_, grammar_print h⟩, fun ⟨_, h⟩ => h.known⟩, fun h => ⟨fun es' => ?_, ?_⟩⟩
  · refine ⟨fun h' => elements_unique h' (grammar_print h), ?_⟩
    rintro rfl
    exact grammar_print h
  · exact formats_of_grammar (grammar_print h)

/-! ## Patterns put together -/

def EndsBare (p : Text) : Prop := ∃ front es x, p = front ++ ['%', x] ∧ Grammar front es ∧ x ∈ formatLetters

theorem EndsBare.ordinary {c : Char} {p : Text} (hc : c ≠ '%') (h : EndsBare p) : EndsBare (c :: p) := by
  obtain ⟨front, es, x, rfl, hfront, hx⟩ := h
  exact ⟨c :: front, _, x, rfl, .ordinary hc hfront, hx⟩

theorem EndsBare.escape {p : Text} (h : EndsBare p) : EndsBare ('%' :: '%' :: p) := by
  obtain ⟨front, es, x, rfl, hfront, hx⟩ := h
  exact ⟨'%' :: '%' :: front, _, x, rfl, .escape hfront, hx⟩

theorem stops_percent (p : Text) : Stops ('%' :: p) := by
  rintro c hc
  cases hc
  decide

theorem EndsBare.bare {y : Char} {p : Text} (hy : y ∈ formatLetters) (hp : Stops p) (h : EndsBare p) :
    EndsBare ('%' :: y :: p) := by
  obtain ⟨front, es, x, rfl, hfront, hx⟩ := h
  refine ⟨'%' :: y :: front, _, x, rfl, .bare hy (fun c hc => hp c ?_) hfront, hx⟩
  rw [List.head?_append, hc]
  rfl

theorem EndsBare.braced {y : Char} {f p : Text} (hy : y ∈ formatLetters) (hf : '\x7d' ∉ f) (h : EndsBare p) :
    EndsBare ('%' :: y :: '\x7b' :: (f ++ '\x7d' :: p)) := by
  obtain ⟨front, es, x, rfl, hfront, hx⟩ := h
  exact ⟨'%' :: y :: '\x7b' :: (f ++ '\x7d' :: front), _, x, by simp, .braced hy hf hfront, hx⟩

/-- A pattern may be put behind another one, where it does not go on with an item. -/
theorem grammar_append {p q : Text} {es fs : List Elem} (hp : Grammar p es) (hq : Grammar q fs)
    (h : EndsBare p → Stops q) : Grammar (p ++ q) (es ++ fs) := by
  induction hp with
  | nil => exact hq
  | ordinary hc _ ih => exact .ordinary hc (ih fun hend => h (hend.ordinary hc))
  | escape _ ih => exact .escape (ih fun hend => h hend.escape)
  | @braced x f p es hx hf _ ih =>
    have hsame : '%' :: x :: '\x7b' :: (f ++ '\x7d' :: p) ++ q = '%' :: x :: '\x7b' :: (f ++ '\x7d' :: (p ++ q)) := by
      simp
    rw [hsame]
    exact .braced hx hf (ih fun hend => h (hend.braced hx hf))
  | @bare x p es hx hstops _ ih =>
    refine .bare hx ?_ (ih fun hend => h (hend.bare hx hstops))
    cases p with
    | nil => exact h ⟨[], [], x, rfl, .nil, hx⟩
    | cons c p => exact fun d hd => hstops d hd

theorem Grammar.of_ordinary {c : Char} {p : Text} {es : List Elem} (hc : c ≠ '%') (h : Grammar (c :: p) es) :
    ∃ fs, es = .char c :: fs ∧ Grammar p fs := by
  cases h with
  | ordinary _ h => exact ⟨_, rfl, h⟩
  | escape h => exact absurd rfl hc
  | bare _ _ h => exact absurd rfl hc
  | braced _ _ h => exact absurd rfl hc

theorem Grammar.of_escape {p : Text} {es : List Elem} (h : Grammar ('%' :: '%' :: p) es) :
    ∃ fs, es = .char '%' :: fs ∧ Grammar p fs := by
  cases h with
  | ordinary hc h => exact absurd rfl hc
  | escape h => exact ⟨_, rfl, h⟩
  | bare hx _ h => exact absurd rfl (isAlpha_of_mem_formatLetters hx).2.1
  | braced hx _ h => exact absurd rfl (isAlpha_of_mem_formatLetters hx).2.1

theorem Grammar.of_item {x : Char} {p : Text} {es : List Elem} (hx : x ∈ formatLetters)
    (h : Grammar ('%' :: x :: p) es) : (∃ fs, es = .item x [] :: fs ∧ Stops p ∧ Grammar p fs) ∨
      ∃ f rest fs, p = '\x7b' :: (f ++ '\x7d' :: rest) ∧ '\x7d' ∉ f ∧ es = .item x f :: fs ∧ Grammar rest fs := by
  cases h with
  | ordinary hc h => exact absurd rfl hc
  | escape h => exact absurd rfl (isAlpha_of_mem_formatLetters hx).2.1
  | bare _ hp h => exact Or.inl ⟨_, rfl, hp, h⟩
  | braced _ hf h => exact Or.inr ⟨_, _, _, rfl, hf, rfl, h⟩

/-- Behind a pattern, what stops the item at its end has the other elements. -/
theorem grammar_of_append {p q : Text} {es fs : List Elem} (hp : Grammar p es) (hq : Stops q)
    (h : Grammar (p ++ q) (es ++ fs)) : Grammar q fs := by
  induction hp with
  | nil => exact h
  | ordinary hc _ ih =>
    obtain ⟨gs, heq, h⟩ := h.of_ordinary hc
    rw [← (List.cons.inj heq).2] at h
    exact ih h
  | escape _ ih =>
    obtain ⟨gs, heq, h⟩ := h.of_escape
    rw [← (List.cons.inj heq).2] at h
    exact ih h
  | @bare x p es hx hp _ ih =>
    rcases h.of_item hx with ⟨gs, heq, -, h⟩ | ⟨f, rest, gs, heq, -⟩
    · rw [← (List.cons.inj heq).2] at h
      exact ih h
    · -- a brace stops nothing
      have hhead : (List.append p q).head? = some '\x7b' := by rw [heq]; rfl
      cases p with
      | nil => exact absurd rfl (hq _ hhead).2.1
      | cons c p => exact absurd rfl (hp _ hhead).2.1
  | @braced x f p es hx hf _ ih =>
    have hsame : '%' :: x :: '\x7b' :: (f ++ '\x7d' :: p) ++ q = '%' :: x :: '\x7b' :: (f ++ '\x7d' :: (p ++ q)) := by
      simp
    rw [hsame] at h
    rcases h.of_item hx with ⟨gs, -, hstops, -⟩ | ⟨g, rest, gs, htext, hg, heq, h⟩
    · exact absurd rfl (hstops _ rfl).2.1
    · have hread := braced_append hf (p ++ q)
      rw [(List.cons.inj htext).2, braced_append hg rest] at hread
      obtain ⟨-, rfl⟩ := Prod.ext_iff.mp (Option.some.inj hread)
      rw [← (List.cons.inj heq).2] at h
      exact ih h

/-- Where two patterns put together have the elements of both, the second one does not go on with an item. -/
theorem stops_of_append {p q : Text} {es fs : List Elem} (hp : Grammar p es) (hq : Grammar q fs)
    (h : Grammar (p ++ q) (es ++ fs)) (hend : EndsBare p) : Stops q := by
  obtain ⟨front, gs, x, rfl, hfront, hx⟩ := hend
  have hlast : Grammar ['%', x] [.item x []] := .bare hx (by simp) .nil
  obtain rfl := elements_unique hp (grammar_append hfront hlast fun _ => stops_percent _)
  rw [List.append_assoc, List.append_assoc] at h
  rcases (grammar_of_append hfront (stops_percent _) h).of_item hx with
    ⟨-, -, hstops, -⟩ | ⟨f, rest, hs, rfl, -, heq, h⟩
  · exact hstops
  · -- the braces would be characters of `q`, and an empty text of the item
    obtain ⟨hitem, htail⟩ := List.cons.inj heq
    have hf : [] = f := (Elem.item.inj hitem).2
    have hsame : fs = hs := htail
    subst hf hsame
    obtain ⟨gs, hfs, hq⟩ := hq.of_ordinary (by decide)
    obtain ⟨ks, hgs, hrest⟩ := Grammar.of_ordinary (by decide) hq
    have hlen := congrArg List.length (elements_unique h hrest)
    rw [hfs, hgs, List.length_cons, List.length_cons] at hlen
    omega

/-- **Patterns put together.** The elements of two patterns one behind the other are those of both exactly when the
first one does not end with an item that the second one goes on with; then the formatter writes what the two write. -/
theorem append_iff {p q : Text} {es fs : List Elem} (hp : Grammar p es) (hq : Grammar q fs) :
    (Grammar (p ++ q) (es ++ fs) ↔ (EndsBare p → Stops q)) ∧
      ((EndsBare p → Stops q) → (LogFormatter.mk (p ++ q)).run.2 = false ∧ ∀ strftime logger level event,
        (LogFormatter.mk (p ++ q)).format strftime logger level event =
          (LogFormatter.mk p).format strftime logger level event ++
            (LogFormatter.mk q).format strftime logger level event) := by
  refine ⟨⟨fun h hend => stops_of_append hp hq h hend, grammar_append hp hq⟩, fun h => ?_⟩
  obtain ⟨herror, hformat⟩ := formats_of_grammar (grammar_append hp hq h)
  refine ⟨herror, fun strftime logger level event => ?_⟩
  rw [hformat, List.flatMap_append, (formats_of_grammar hp).2, (formats_of_grammar hq).2]

/-- `%p` and ` %m`. -/
theorem append_iff_level : (LogFormatter.mk ("%p".toList ++ " %m".toList)).run.2 = false ∧
    ∀ strftime logger level event,
      (LogFormatter.mk ("%p".toList ++ " %m".toList)).format strftime logger level event =
        (LogFormatter.mk "%p".toList).format strftime logger level event ++
          (LogFormatter.mk " %m".toList).format strftime logger level event := by
  have hp : Grammar "%p".toList [.item 'p' []] := .bare (by decide) (by simp) .nil
  have hq : Grammar " %m".toList [.char ' ', .item 'm' []] :=
    .ordinary (by decide) (.bare (by decide) (by simp) .nil)
  refine (append_iff hp hq).2 fun _ c hc => ?_
  cases hc
  decide

end QWebServer
