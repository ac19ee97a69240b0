import Mathlib.Data.List.Forall2
import QWebServer.Log.Scan

/-!
# The patterns that `LogFormatter::init` accepts

* `Grammar` : the grammar of patterns, with the elements of a pattern, `Elem.format` : what each letter writes;
* `merge` : elements with adjacent characters put together, `Stands` : the item of each letter;
* `pieces_grammar` : what is in the grammar is parsed into its elements, `grammar_of_pieces` : what is parsed without an
  error is in the grammar;
* `run_accepts` : `init` accepts the grammar and nothing else.
-/

namespace QWebServer

def formatLetters : Text := ['m', 'p', 'r', 'c', 't', 'n', 'd', 'f', 'l', 'T', 'F', 'N']

/-- An element of a pattern: a character of the text, or a letter with the text between its braces. -/
inductive Elem
  | char (c : Char)
  | item (x : Char) (f : Text)

/-- **The grammar of patterns**, with the elements of a pattern from left to right. -/
inductive Grammar : Text → List Elem → Prop
  | nil : Grammar [] []
  | ordinary {c : Char} {p : Text} {es : List Elem} (hc : c ≠ '%') (h : Grammar p es) :
      Grammar (c :: p) (.char c :: es)
  | escape {p : Text} {es : List Elem} (h : Grammar p es) : Grammar ('%' :: '%' :: p) (.char '%' :: es)
  | bare {x : Char} {p : Text} {es : List Elem} (hx : x ∈ formatLetters)
      (hp : ∀ c, p.head? = some c → c.isAlpha = false ∧ c ≠ '\x7b' ∧ c ≠ '\x7d') (h : Grammar p es) :
      Grammar ('%' :: x :: p) (.item x [] :: es)
  | braced {x : Char} {f p : Text} {es : List Elem} (hx : x ∈ formatLetters) (hf : '\x7d' ∉ f) (h : Grammar p es) :
      Grammar ('%' :: x :: '\x7b' :: (f ++ '\x7d' :: p)) (.item x f :: es)

/-- A character put before pieces: into the text they begin with, or as a text of its own. -/
def prepend (c : Char) : List Piece → List Piece
  | .text s :: ps => .text (c :: s) :: ps
  | ps => .text [c] :: ps

/-- Adjacent characters put together into one text. -/
def merge : List Elem → List Piece
  | [] => []
  | .char c :: es => prepend c (merge es)
  | .item x f :: es => .item [x] f :: merge es

/-- The format that `%d` has without one between its braces. -/
def dataTimeFormat : Text := "%Y-%m-%d %H:%M:%S".toList

/-- `Stands q i` : the item `i` stands for the piece `q`. Of the letters only `d` makes a difference between texts. -/
inductive Stands : Piece → FormatItem → Prop
  | text (s : Text) : Stands (.text s) (.string s)
  | message (f : Text) : Stands (.item ['m'] f) .message
  | level (f : Text) : Stands (.item ['p'] f) .level
  | elapse (f : Text) : Stands (.item ['r'] f) .elapse
  | name (f : Text) : Stands (.item ['c'] f) .name
  | threadId (f : Text) : Stands (.item ['t'] f) .threadId
  | newLine (f : Text) : Stands (.item ['n'] f) .newLine
  | dataTime {f : Text} (hf : f ≠ []) : Stands (.item ['d'] f) (.dataTime f)
  | dataTimeDefault : Stands (.item ['d'] []) (.dataTime dataTimeFormat)
  | fileName (f : Text) : Stands (.item ['f'] f) .fileName
  | line (f : Text) : Stands (.item ['l'] f) .line
  | tab (f : Text) : Stands (.item ['T'] f) .tab
  | fiberId (f : Text) : Stands (.item ['F'] f) .fiberId
  | threadName (f : Text) : Stands (.item ['N'] f) .threadName

def Elem.format (strftime : Text → UInt64 → Text) (logger : Text) (level : LogLevel) (event : LogEvent) : Elem → Text
  | char c => [c]
  | item 'm' _ => event.content
  | item 'p' _ => level.ToString
  | item 'r' _ => decimal event.elapse.toNat
  | item 'c' _ => logger
  | item 't' _ => decimal event.threadId.toNat
  | item 'n' _ => ['\n']
  | item 'd' f => strftime (if f = [] then dataTimeFormat else f) event.time
  | item 'f' _ => event.file
  | item 'l' _ => signedDecimal event.line.toInt
  | item 'T' _ => ['\t']
  | item 'F' _ => decimal event.fiberId.toNat
  | item 'N' _ => event.threadName
  -- no other letter is in a pattern
  | item _ _ => []

/-! ## Merging -/

theorem merge_chars (s : Text) (x : Char) (f : Text) (es : List Elem) :
    merge (s.map .char ++ .item x f :: es) = flush s ++ .item [x] f :: merge es := by
  induction s with
  | nil => rfl
  | cons c s ih =>
    rw [List.map_cons, List.cons_append, merge, ih]
    cases s with
    | nil => rfl
    | cons d s => rfl

theorem merge_chars_end (s : Text) : merge (s.map .char) = flush s := by
  induction s with
  | nil => rfl
  | cons c s ih =>
    rw [List.map_cons, merge, ih]
    cases s with
    | nil => rfl
    | cons d s => rfl

theorem mem_prepend {c : Char} {ps : List Piece} {q : Piece} (h : q ∈ prepend c ps) : (∃ s, q = .text s) ∨ q ∈ ps := by
  unfold prepend at h
  split at h
  · rcases List.mem_cons.mp h with rfl | h
    · exact Or.inl ⟨_, rfl⟩
    · exact Or.inr (List.mem_cons_of_mem _ h)
  · rcases List.mem_cons.mp h with rfl | h
    · exact Or.inl ⟨_, rfl⟩
    · exact Or.inr h

/-- The pieces are texts, and the items among the elements. -/
theorem mem_merge {es : List Elem} {q : Piece} (h : q ∈ merge es) :
    (∃ s, q = .text s) ∨ ∃ x f, q = .item [x] f ∧ Elem.item x f ∈ es := by
  induction es generalizing q with
  | nil => cases h
  | cons e es ih =>
    have hrec : ∀ {q}, q ∈ merge es → (∃ s, q = .text s) ∨ ∃ x f, q = .item [x] f ∧ Elem.item x f ∈ e :: es := by
      intro q hq
      rcases ih hq with h | ⟨y, g, hy, hmem⟩
      · exact Or.inl h
      · exact Or.inr ⟨y, g, hy, List.mem_cons_of_mem _ hmem⟩
    cases e with
    | item x f =>
      rcases List.mem_cons.mp h with rfl | h
      · exact Or.inr ⟨x, f, rfl, List.mem_cons_self⟩
      · exact hrec h
    | char c =>
      rcases mem_prepend h with h | h
      · exact Or.inl h
      · exact hrec h

/-! ## The letters -/

theorem find_isSome_iff (str fmt : Text) :
    (FormatItem.find str fmt).isSome = true ↔ ∃ x, str = [x] ∧ x ∈ formatLetters := by
  constructor
  · intro h
    unfold FormatItem.find at h
    split at h <;> first
      | exact ⟨_, rfl, by decide⟩
      | cases h
  · rintro ⟨x, rfl, hx⟩
    simp only [formatLetters, List.mem_cons, List.not_mem_nil, or_false] at hx
    rcases hx with rfl | rfl | rfl | rfl | rfl | rfl | rfl | rfl | rfl | rfl | rfl | rfl <;> rfl

/-- An entry of `vec` is an error where its letters are not one of the twelve. -/
theorem toItem_item_eq_false {str fmt : Text} :
    (Piece.item str fmt).toItem.2 = false ↔ ∃ x, str = [x] ∧ x ∈ formatLetters := by
  rw [← find_isSome_iff str fmt]
  unfold Piece.toItem
  dsimp only
  cases FormatItem.find str fmt with
  | none => simp
  | some i => simp

/-- **What stands for a piece** without an error is the item that `init` makes of it. -/
theorem stands_iff {q : Piece} (hq : q.toItem.2 = false) {i : FormatItem} : Stands q i ↔ i = q.toItem.1 := by
  constructor
  · intro h
    cases h with
    | dataTime hf =>
      show FormatItem.dataTime _ = .ofDataTime _
      rw [FormatItem.ofDataTime, if_neg (by simpa using hf)]
    | _ => rfl
  · rintro rfl
    cases q with
    | text s => exact .text s
    | item str f =>
      obtain ⟨x, rfl, hx⟩ := toItem_item_eq_false.mp hq
      simp only [formatLetters, List.mem_cons, List.not_mem_nil, or_false] at hx
      cases f <;> rcases hx with rfl | rfl | rfl | rfl | rfl | rfl | rfl | rfl | rfl | rfl | rfl | rfl <;>
        first
        | exact .dataTime (List.cons_ne_nil _ _)
        | constructor

theorem forall₂_stands_iff {qs : List Piece} (hqs : ∀ q ∈ qs, q.toItem.2 = false) (is : List FormatItem) :
    List.Forall₂ Stands qs is ↔ is = qs.map fun q => q.toItem.1 := by
  induction qs generalizing is with
  | nil => simp
  | cons q qs ih =>
    obtain ⟨hq, hqs⟩ := List.forall_mem_cons.mp hqs
    rw [List.forall₂_cons_left_iff, List.map_cons]
    simp only [stands_iff hq, ih hqs]
    constructor
    · rintro ⟨i, is, rfl, rfl, rfl⟩
      rfl
    · rintro rfl
      exact ⟨_, _, rfl, rfl, rfl⟩

section
variable (strftime : Text → UInt64 → Text) (logger : Text) (level : LogLevel) (event : LogEvent)

theorem format_toItem {x : Char} (hx : x ∈ formatLetters) (f : Text) :
    (Piece.item [x] f).toItem.1.format strftime logger level event =
      (Elem.item x f).format strftime logger level event := by
  simp only [formatLetters, List.mem_cons, List.not_mem_nil, or_false] at hx
  cases f <;> rcases hx with rfl | rfl | rfl | rfl | rfl | rfl | rfl | rfl | rfl | rfl | rfl | rfl <;> rfl

/-- What the items of pieces write, one after the other. -/
def formatPieces (ps : List Piece) : Text := ps.flatMap fun q => q.toItem.1.format strftime logger level event

theorem formatPieces_prepend (c : Char) (ps : List Piece) :
    formatPieces strftime logger level event (prepend c ps) = c :: formatPieces strftime logger level event ps := by
  unfold prepend
  split <;> rfl

theorem formatPieces_merge {es : List Elem} (hes : ∀ x f, Elem.item x f ∈ es → x ∈ formatLetters) :
    formatPieces strftime logger level event (merge es) = es.flatMap (Elem.format strftime logger level event) := by
  induction es with
  | nil => rfl
  | cons e es ih =>
    have hrest := ih fun x f hx => hes x f (List.mem_cons_of_mem e hx)
    cases e with
    | char c =>
      rw [merge, formatPieces_prepend, hrest]
      rfl
    | item x f =>
      rw [merge, List.flatMap_cons, ← hrest, ← format_toItem strftime logger level event (hes x f List.mem_cons_self) f]
      rfl

end

theorem isAlpha_of_mem_formatLetters {x : Char} (hx : x ∈ formatLetters) :
    x.isAlpha = true ∧ x ≠ '%' ∧ x ≠ '\x7b' := by
  simp only [formatLetters, List.mem_cons, List.not_mem_nil, or_false] at hx
  rcases hx with rfl | rfl | rfl | rfl | rfl | rfl | rfl | rfl | rfl | rfl | rfl | rfl <;> decide

/-! ## After a `%` -/

theorem braced_append {f : Text} (hf : '\x7d' ∉ f) (p : Text) : braced (f ++ '\x7d' :: p) = some (f, p) := by
  induction f with
  | nil => rfl
  | cons c f ih =>
    rw [List.mem_cons, not_or] at hf
    rw [List.cons_append, braced, if_neg fun h => hf.1 h.symm, ih hf.2]
    rfl

theorem eq_of_braced {p f rest : Text} (h : braced p = some (f, rest)) : p = f ++ '\x7d' :: rest ∧ '\x7d' ∉ f := by
  induction p generalizing f with
  | nil => cases h
  | cons c p ih =>
    rw [braced] at h
    split_ifs at h with hc
    · cases h
      exact ⟨by rw [hc]; rfl, by simp⟩
    · obtain ⟨⟨f', rest'⟩, hb, he⟩ := Option.map_eq_some_iff.mp h
      cases he
      obtain ⟨rfl, hf⟩ := ih hb
      exact ⟨rfl, by simp [hf, Ne.symm hc]⟩

/-- What `spec` leaves where it stops without a brace. -/
def Stops (p : Text) : Prop := ∀ c, p.head? = some c → c.isAlpha = false ∧ c ≠ '\x7b' ∧ c ≠ '\x7d'

theorem spec_of_stops {p : Text} (hp : Stops p) : spec p = some ([], [], p) := by
  cases p with
  | nil => rfl
  | cons c p =>
    obtain ⟨halpha, hopen, hclose⟩ := hp c rfl
    rw [spec, if_neg hopen, if_neg (by simp [halpha, hclose])]

theorem spec_letter {x : Char} (hx : x ∈ formatLetters) (p : Text) :
    spec (x :: p) = (spec p).map fun r => (x :: r.1, r.2.1, r.2.2) := by
  obtain ⟨halpha, -, hopen⟩ := isAlpha_of_mem_formatLetters hx
  rw [spec, if_neg hopen, if_pos (by simp [halpha])]

/-- **What `spec` reads**: letters, and then an end without a brace or a text between braces. -/
theorem eq_of_spec {p str fmt rest : Text} (h : spec p = some (str, fmt, rest)) :
    (p = str ++ rest ∧ fmt = [] ∧ Stops rest) ∨
      (p = str ++ '\x7b' :: (fmt ++ '\x7d' :: rest) ∧ '\x7d' ∉ fmt) := by
  induction p generalizing str fmt with
  | nil =>
    cases h
    exact Or.inl ⟨rfl, rfl, by simp [Stops]⟩
  | cons c p ih =>
    rw [spec] at h
    split_ifs at h with hopen hletter
    · obtain ⟨⟨f, rest'⟩, hb, he⟩ := Option.map_eq_some_iff.mp h
      cases he
      obtain ⟨rfl, hf⟩ := eq_of_braced hb
      exact Or.inr ⟨by rw [hopen]; rfl, hf⟩
    · obtain ⟨⟨str', fmt', rest'⟩, hp, he⟩ := Option.map_eq_some_iff.mp h
      cases he
      rcases ih hp with ⟨rfl, hfmt, hstops⟩ | ⟨rfl, hf⟩
      · exact Or.inl ⟨rfl, hfmt, hstops⟩
      · exact Or.inr ⟨rfl, hf⟩
    · cases h
      refine Or.inl ⟨rfl, rfl, ?_⟩
      rintro d hd
      cases hd
      simp only [Bool.or_eq_true, decide_eq_true_eq, not_or, Bool.not_eq_true] at hletter
      exact ⟨hletter.1, hopen, hletter.2⟩

/-! ## The whole pattern -/

/-- **What is in the grammar is parsed into its elements**, behind the text that is pending. -/
theorem pieces_grammar {p : Text} {es : List Elem} (h : Grammar p es) :
    ∀ (k : Nat) (nstr : Text), p.length ≤ k → pieces k p nstr = (merge (nstr.map .char ++ es), false) := by
  induction h with
  | nil =>
    intro k nstr hk
    rw [List.append_nil, merge_chars_end]
    cases k <;> rfl
  | @ordinary c p es hc _ ih =>
    intro k nstr hk
    obtain ⟨k, rfl, hleft⟩ := exists_succ_of_length_le hk
    rw [pieces, if_pos hc, ih k (nstr ++ [c]) hleft]
    simp
  | @escape p es _ ih =>
    intro k nstr hk
    obtain ⟨k, rfl, hleft⟩ := exists_succ_of_length_le hk
    rw [pieces, if_neg (by simp), if_pos List.head?_cons, List.tail_cons,
      ih k (nstr ++ ['%']) (by simp at hleft; omega)]
    simp
  | @bare x p es hx hp _ ih =>
    intro k nstr hk
    obtain ⟨k, rfl, hleft⟩ := exists_succ_of_length_le hk
    have hne := (isAlpha_of_mem_formatLetters hx).2.1
    rw [pieces, if_neg (by simp), if_neg (by simpa using hne), spec_letter hx, spec_of_stops hp]
    simp only [Option.map_some]
    rw [ih k [] (by simp at hleft; omega), merge_chars]
    rfl
  | @braced x f p es hx hf _ ih =>
    intro k nstr hk
    obtain ⟨k, rfl, hleft⟩ := exists_succ_of_length_le hk
    have hne := (isAlpha_of_mem_formatLetters hx).2.1
    rw [pieces, if_neg (by simp), if_neg (by simpa using hne), spec_letter hx, spec, if_pos rfl, braced_append hf]
    simp only [Option.map_some]
    rw [ih k [] (by simp at hleft; omega), merge_chars]
    rfl

theorem Grammar.letter {p : Text} {es : List Elem} (h : Grammar p es) {x : Char} {f : Text} (hx : Elem.item x f ∈ es) :
    x ∈ formatLetters := by
  induction h with
  | nil => cases hx
  | ordinary _ _ ih => exact ih (by simpa using hx)
  | escape _ ih => exact ih (by simpa using hx)
  | bare hy _ _ ih =>
    rcases List.mem_cons.mp hx with he | hx
    · cases he
      exact hy
    · exact ih hx
  | braced hy _ _ ih =>
    rcases List.mem_cons.mp hx with he | hx
    · cases he
      exact hy
    · exact ih hx

/-- **What is parsed without an error is in the grammar.** -/
theorem grammar_of_pieces {k : Nat} : ∀ {p nstr : Text}, p.length ≤ k → (pieces k p nstr).2 = false →
    (∀ q ∈ (pieces k p nstr).1, q.toItem.2 = false) → ∃ es, Grammar p es := by
  induction k with
  | zero =>
    intro p nstr hk _ _
    obtain rfl : p = [] := List.length_eq_zero_iff.mp (by omega)
    exact ⟨[], .nil⟩
  | succ k ih =>
    intro p nstr hk herror hknown
    cases p with
    | nil => exact ⟨[], .nil⟩
    | cons c p =>
      rw [List.length_cons] at hk
      rw [pieces] at herror hknown
      by_cases hc : c ≠ '%'
      · rw [if_pos hc] at herror hknown
        obtain ⟨es, h⟩ := ih (by omega) herror hknown
        exact ⟨_, .ordinary hc h⟩
      · rw [if_neg hc] at herror hknown
        obtain rfl : c = '%' := not_not.mp hc
        by_cases hescape : p.head? = some '%'
        · rw [if_pos hescape] at herror hknown
          obtain ⟨p, rfl⟩ : ∃ p', p = '%' :: p' := ⟨p.tail, (List.cons_head?_tail hescape).symm⟩
          obtain ⟨es, h⟩ := ih (by simp at hk ⊢; omega) herror hknown
          exact ⟨_, .escape h⟩
        · rw [if_neg hescape] at herror hknown
          cases hp : spec p with
          | none =>
            rw [hp] at herror
            cases herror
          | some r =>
            obtain ⟨str, fmt, rest⟩ := r
            rw [hp] at herror hknown
            dsimp only at herror hknown
            have hlen := spec_length hp
            obtain ⟨es, h⟩ := ih (p := rest) (by omega) herror fun q hq => hknown q (by simp [hq])
            obtain ⟨x, rfl, hx⟩ := toItem_item_eq_false.mp (hknown (.item str fmt) (by simp))
            rcases eq_of_spec hp with ⟨rfl, rfl, hstops⟩ | ⟨rfl, hf⟩
            · exact ⟨_, .bare hx hstops h⟩
            · exact ⟨_, .braced hx hf h⟩

theorem Grammar.toItem {p : Text} {es : List Elem} (h : Grammar p es) : ∀ q ∈ merge es, q.toItem.2 = false := by
  intro q hq
  rcases mem_merge hq with ⟨s, rfl⟩ | ⟨x, f, rfl, hx⟩
  · rfl
  · exact toItem_item_eq_false.mpr ⟨x, rfl, h.letter hx⟩

/-- **`init` accepts the grammar and nothing else.** `m_error` is false exactly for the patterns in the grammar; for one
of them `m_items` are what stands for its elements from left to right with adjacent characters merged, and `format`
writes what the elements write, in their order. -/
theorem run_accepts (f : LogFormatter) :
    (f.run.2 = false ↔ ∃ es, Grammar f.pattern es) ∧
      ∀ es, Grammar f.pattern es → (∀ is, List.Forall₂ Stands (merge es) is ↔ is = f.run.1) ∧
        ∀ strftime logger level event,
          f.format strftime logger level event = es.flatMap (Elem.format strftime logger level event) := by
  have hpieces : ∀ es, Grammar f.pattern es → pieces f.pattern.length f.pattern [] = (merge es, false) :=
    fun es h => pieces_grammar h _ [] (Nat.le_refl _)
  rw [LogFormatter.run_eq]
  refine ⟨⟨fun herror => ?_, ?_⟩, fun es h => ⟨?_, fun strftime logger level event => ?_⟩⟩
  · rw [LogFormatter.init, Bool.or_eq_false_iff, List.any_eq_false] at herror
    exact grammar_of_pieces (Nat.le_refl _) herror.1 fun q hq => by simpa using herror.2 q hq
  · rintro ⟨es, h⟩
    rw [LogFormatter.init, hpieces es h, Bool.false_or, List.any_eq_false]
    intro q hq
    simp [h.toItem q hq]
  · rw [LogFormatter.init, hpieces es h]
    exact forall₂_stands_iff h.toItem
  · rw [← formatPieces_merge strftime logger level event fun x g hx => h.letter hx, LogFormatter.format,
      LogFormatter.items, LogFormatter.init, hpieces es h]
    simp [formatPieces, List.flatMap_map]

end QWebServer
