import Mathlib.Data.List.Basic

/-! # Splitting a text into words

A text is split at certain characters; more characters are passed over where no word has begun, and a doubled
mark anywhere opens a comment that the next newline closes. `split` is the automaton. A part of a text that ends
between words is split alike whatever follows it, so a text is split part by part, and the first word of a split
is found by passing over what `Skips` describes and then reading what `Runs` describes.
-/

namespace Words

/-- What separates words, and what begins and ends a comment. -/
structure Alphabet (α : Type*) where
  skipped : α → Bool
  ends : α → Bool
  mark : α
  newline : α
  skipped_of_ends : ∀ c, ends c = true → skipped c = true
  mark_begins : skipped mark = false

/-- Where a reader of a text stands. -/
inductive Mode (α : Type*) where
  | between
  | word (read : List α)
  | comment
deriving DecidableEq

variable {α : Type*} [DecidableEq α] (a : Alphabet α)

namespace Alphabet

/-- A comment opens at this character. -/
def Opens (c : α) (rest : List α) : Prop := c = a.mark ∧ rest.head? = some a.mark

instance decidableOpens (c : α) (rest : List α) : Decidable (a.Opens c rest) :=
  inferInstanceAs (Decidable (_ ∧ _))

end Alphabet

/-- The words that are complete, and where the reader stands at the end. -/
def split : Mode α → List α → List (List α) × Mode α
  | mode, [] => ([], mode)
  | .comment, c :: rest => if c = a.newline then split .between rest else split .comment rest
  | .between, c :: rest =>
    if a.Opens c rest then split .comment rest
    else if a.skipped c then split .between rest
    else split (.word [c]) rest
  | .word read, c :: rest =>
    if a.Opens c rest then (read :: (split .comment rest).1, (split .comment rest).2)
    else if a.ends c then (read :: (split .between rest).1, (split .between rest).2)
    else split (.word (read ++ [c])) rest

/-- The words that are complete, each with what is left of the text behind it. -/
def tokens : Mode α → List α → List (List α × List α)
  | _, [] => []
  | .comment, c :: rest => if c = a.newline then tokens .between rest else tokens .comment rest
  | .between, c :: rest =>
    if a.Opens c rest then tokens .comment rest
    else if a.skipped c then tokens .between rest
    else tokens (.word [c]) rest
  | .word read, c :: rest =>
    if a.Opens c rest then (read, c :: rest) :: tokens .comment rest
    else if a.ends c then (read, c :: rest) :: tokens .between rest
    else tokens (.word (read ++ [c])) rest

/-- Passing over what stands between words. -/
inductive Skips : List α → List α → Prop
  | here (text : List α) : Skips text text
  | skipped {c : α} {rest left : List α} (passed : a.skipped c = true) (later : Skips rest left) :
      Skips (c :: rest) left
  | comment {c : α} {body rest left : List α} (opens : a.Opens c (body ++ a.newline :: rest))
      (inside : a.newline ∉ body) (later : Skips rest left) : Skips (c :: (body ++ a.newline :: rest)) left

/-- A word ends before this text. -/
def Stops : List α → Prop
  | [] => False
  | c :: rest => a.Opens c rest ∨ a.ends c = true

/-- A word goes on over these characters and ends before `rest`. -/
def Runs : List α → List α → Prop
  | [], rest => Stops a rest
  | c :: more, rest => ¬a.Opens c (more ++ rest) ∧ a.ends c = false ∧ Runs more rest

variable {a} {text rest left gap : List α} {words : List (List α)} {mode final : Mode α}

omit [DecidableEq α] in
theorem not_opens_of_skipped {c : α} (passed : a.skipped c = true) : ¬a.Opens c rest := by
  rintro ⟨rfl, -⟩
  rw [a.mark_begins] at passed
  cases passed

omit [DecidableEq α] in
theorem opens_append {c : α} (more : List α) (follows : rest ≠ []) : a.Opens c (rest ++ more) ↔ a.Opens c rest := by
  rw [Alphabet.Opens, List.head?_append_of_ne_nil _ follows, Alphabet.Opens]

omit [DecidableEq α] in
theorem ne_nil_of_opens {c : α} (opens : a.Opens c rest) : rest ≠ [] := by
  rintro rfl
  cases opens.2

/-- A part that ends between words does not depend on what follows. -/
theorem split_append (more : List α) (closed : (split a mode text).2 = .between) :
    split a mode (text ++ more) =
      ((split a mode text).1 ++ (split a .between more).1, (split a .between more).2) := by
  fun_induction split a mode text with
  | case1 mode =>
    obtain rfl : mode = .between := closed
    rfl
  | case2 rest ih =>
    rw [List.cons_append, split, if_pos rfl]
    exact ih closed
  | case3 c rest apart ih =>
    rw [List.cons_append, split, if_neg apart]
    exact ih closed
  | case4 c rest opens ih =>
    rw [List.cons_append, split, if_pos ((opens_append more (ne_nil_of_opens opens)).mpr opens)]
    exact ih closed
  | case5 c rest opens passed ih =>
    rw [List.cons_append, split, if_neg (not_opens_of_skipped passed), if_pos passed]
    exact ih closed
  | case6 c rest opens starts ih =>
    have follows : rest ≠ [] := by
      rintro rfl
      cases closed
    rw [List.cons_append, split, if_neg (by rwa [opens_append more follows]), if_neg starts]
    exact ih closed
  | case7 read c rest opens ih =>
    rw [List.cons_append, split, if_pos ((opens_append more (ne_nil_of_opens opens)).mpr opens), ih closed]
    rfl
  | case8 read c rest opens ends ih =>
    rw [List.cons_append, split, if_neg (not_opens_of_skipped (a.skipped_of_ends c ends)), if_pos ends, ih closed]
    rfl
  | case9 read c rest opens goes ih =>
    have follows : rest ≠ [] := by
      rintro rfl
      cases closed
    rw [List.cons_append, split, if_neg (by rwa [opens_append more follows]), if_neg goes]
    exact ih closed

theorem split_skipped (blank : ∀ c ∈ gap, a.skipped c = true) : split a .between gap = ([], .between) := by
  induction gap with
  | nil => rfl
  | cons c rest ih =>
    obtain ⟨here, later⟩ := List.forall_mem_cons.mp blank
    rw [split, if_neg (not_opens_of_skipped here), if_pos here]
    exact ih later

/-- The word that a reader is inside of, and what follows it. -/
theorem split_word {read w : List α} (same : split a (.word read) text = (w :: words, final)) :
    ∃ more rest, text = more ++ rest ∧ w = read ++ more ∧ Runs a more rest ∧ split a .between rest = (words, final) := by
  induction text generalizing read with
  | nil => cases same
  | cons c rest ih =>
    rw [split] at same
    split_ifs at same with opens ends
    · obtain ⟨head, rfl⟩ := Prod.mk.inj same
      obtain ⟨rfl, rfl⟩ := List.cons_eq_cons.mp head
      exact ⟨[], c :: rest, rfl, (List.append_nil _).symm, .inl opens, by rw [split, if_pos opens]⟩
    · obtain ⟨head, rfl⟩ := Prod.mk.inj same
      obtain ⟨rfl, rfl⟩ := List.cons_eq_cons.mp head
      exact ⟨[], c :: rest, rfl, (List.append_nil _).symm, .inr ends,
        by rw [split, if_neg opens, if_pos (a.skipped_of_ends c ends)]⟩
    · obtain ⟨more, left, rfl, rfl, runs, later⟩ := ih same
      exact ⟨c :: more, left, rfl, by rw [List.append_assoc]; rfl, ⟨opens, by simpa using ends, runs⟩, later⟩

/-- A word that has begun is not lost. -/
theorem split_word_ne {read : List α} : split a (.word read) text ≠ ([], .between) := by
  induction text generalizing read with
  | nil => simp [split]
  | cons c rest ih =>
    rw [split]
    split_ifs
    · simp
    · simp
    · exact ih

/-- A comment that closes. -/
theorem split_comment (closes : (split a .comment text).2 ≠ .comment ∨ (split a .comment text).1 ≠ []) :
    ∃ body rest, text = body ++ a.newline :: rest ∧ a.newline ∉ body ∧
      split a .comment text = split a .between rest := by
  induction text with
  | nil => simp [split] at closes
  | cons c rest ih =>
    by_cases here : c = a.newline
    · subst here
      exact ⟨[], rest, rfl, List.not_mem_nil, by rw [split, if_pos rfl]⟩
    · rw [split, if_neg here] at closes ⊢
      obtain ⟨body, left, rfl, inside, same⟩ := ih closes
      exact ⟨c :: body, left, rfl, by simp [inside, Ne.symm here], same⟩

/-- The first word of a text. -/
theorem split_first {w : List α} (same : split a .between text = (w :: words, final)) :
    ∃ c more rest, w = c :: more ∧ Skips a text (c :: (more ++ rest)) ∧ a.skipped c = false ∧
      ¬a.Opens c (more ++ rest) ∧ Runs a more rest ∧ split a .between rest = (words, final) := by
  induction hn : text.length using Nat.strongRecOn generalizing text with
  | ind n ih =>
    subst hn
    cases text with
    | nil => cases same
    | cons c rest =>
      rw [split] at same
      split_ifs at same with opens passed
      · have found : (split a .comment rest).1 ≠ [] := by
          simp [same]
        obtain ⟨body, left, rfl, inside, closed⟩ := split_comment (.inr found)
        rw [closed] at same
        obtain ⟨d, more, left', shape, skips, others⟩ := ih _ (by simp; omega) same rfl
        exact ⟨d, more, left', shape, .comment opens inside skips, others⟩
      · obtain ⟨d, more, left, shape, skips, others⟩ := ih _ (Nat.lt_succ_self _) same rfl
        exact ⟨d, more, left, shape, .skipped passed skips, others⟩
      · obtain ⟨more, left, rfl, rfl, runs, later⟩ := split_word same
        exact ⟨c, more, left, rfl, .here _, by simpa using passed, opens, runs, later⟩

/-- A text without words is passed over. -/
theorem split_none (same : split a .between text = ([], .between)) : Skips a text [] := by
  induction hn : text.length using Nat.strongRecOn generalizing text with
  | ind n ih =>
    subst hn
    cases text with
    | nil => exact .here []
    | cons c rest =>
      rw [split] at same
      split_ifs at same with opens passed
      · have ended : (split a .comment rest).2 ≠ .comment := by simp [same]
        obtain ⟨body, left, rfl, inside, closed⟩ := split_comment (.inl ended)
        rw [closed] at same
        exact .comment opens inside (ih _ (by simp; omega) same rfl)
      · exact .skipped passed (ih _ (Nat.lt_succ_self _) same rfl)
      · exact absurd same split_word_ne

omit [DecidableEq α] in
/-- What is passed over comes before what is left. -/
theorem Skips.suffix (skips : Skips a text left) : left <:+ text := by
  induction skips with
  | here => exact List.suffix_refl _
  | @skipped c rest left passed later ih => exact ih.trans (List.suffix_cons c rest)
  | @comment c body rest left opens inside later ih =>
    exact ih.trans ⟨c :: body ++ [a.newline], by simp⟩

omit [DecidableEq α] in
theorem Skips.append (skips : Skips a text left) (more : List α) : Skips a (text ++ more) (left ++ more) := by
  induction skips with
  | here => exact .here _
  | skipped passed later ih => exact .skipped passed ih
  | @comment c body rest left opens inside later ih =>
    rw [List.cons_append, List.append_assoc, List.cons_append]
    refine .comment ?_ inside ih
    have follows := (opens_append more (ne_nil_of_opens opens)).mpr opens
    rwa [List.append_assoc, List.cons_append] at follows

omit [DecidableEq α] in
theorem Runs.ne_nil {word : List α} (runs : Runs a word rest) : rest ≠ [] := by
  induction word with
  | nil =>
    rintro rfl
    exact runs
  | cons c word ih => exact ih runs.2.2

omit [DecidableEq α] in
theorem Runs.append {word : List α} (runs : Runs a word rest) (more : List α) : Runs a word (rest ++ more) := by
  induction word with
  | nil =>
    cases rest with
    | nil => exact runs.elim
    | cons c rest => exact runs.imp_left fun opens => (opens_append more (ne_nil_of_opens opens)).mpr opens
  | cons c word ih =>
    refine ⟨?_, runs.2.1, ih runs.2.2⟩
    rw [← List.append_assoc, opens_append more (by simp [runs.2.2.ne_nil])]
    exact runs.1

omit [DecidableEq α] in
/-- A word without the mark goes on to the first character that ends it. -/
theorem runs_plain {word : List α} (plain : ∀ c ∈ word, c ≠ a.mark ∧ a.ends c = false) {d : α}
    (ends : a.ends d = true) : Runs a word (d :: rest) := by
  induction word with
  | nil => exact .inr ends
  | cons c word ih =>
    obtain ⟨here, later⟩ := List.forall_mem_cons.mp plain
    exact ⟨fun opens => here.1 opens.1, here.2, ih later⟩

theorem split_runs {read more : List α} (runs : Runs a more rest) : split a (.word read) (more ++ rest) =
    ((read ++ more) :: (split a .between rest).1, (split a .between rest).2) := by
  induction more generalizing read with
  | nil =>
    cases rest with
    | nil => exact runs.elim
    | cons c rest =>
      rw [List.nil_append, List.append_nil, split, split]
      rcases Decidable.em (a.Opens c rest) with opens | plain
      · rw [if_pos opens, if_pos opens]
      · have ends := runs.resolve_left plain
        rw [if_neg plain, if_pos ends, if_neg plain, if_pos (a.skipped_of_ends c ends)]
  | cons c more ih =>
    obtain ⟨plain, goes, runs⟩ := runs
    rw [List.cons_append, split, if_neg plain, if_neg (by simp [goes]), ih runs, List.append_assoc]
    rfl

theorem map_tokens (mode : Mode α) (text : List α) : (tokens a mode text).map Prod.fst = (split a mode text).1 := by
  fun_induction tokens a mode text <;> simp_all [split]

/-- A comment has no words in it. -/
theorem read_comment {body : List α} (inside : a.newline ∉ body) :
    tokens a .comment (body ++ a.newline :: rest) = tokens a .between rest ∧
      split a .comment (body ++ a.newline :: rest) = split a .between rest := by
  induction body with
  | nil =>
    rw [List.nil_append, tokens, split, if_pos rfl, if_pos rfl]
    exact ⟨rfl, rfl⟩
  | cons c body ih =>
    rw [List.mem_cons, not_or] at inside
    rw [List.cons_append, tokens, split, if_neg (Ne.symm inside.1), if_neg (Ne.symm inside.1)]
    exact ih inside.2

/-- What is passed over has no words in it. -/
theorem Skips.read (skips : Skips a text left) :
    tokens a .between text = tokens a .between left ∧ split a .between text = split a .between left := by
  induction skips with
  | here text => exact ⟨rfl, rfl⟩
  | @skipped c rest left passed later ih =>
    have plain : ¬a.Opens c rest := not_opens_of_skipped passed
    rw [tokens, split, if_neg plain, if_neg plain, if_pos passed, if_pos passed]
    exact ih
  | @comment c body rest left opens inside later ih =>
    obtain ⟨words, mode⟩ := @read_comment α _ a rest body inside
    rw [tokens, split, if_pos opens, if_pos opens, words, mode]
    exact ih

theorem tokens_runs {read more : List α} (runs : Runs a more rest) :
    tokens a (.word read) (more ++ rest) = (read ++ more, rest) :: tokens a .between rest := by
  induction more generalizing read with
  | nil =>
    cases rest with
    | nil => exact runs.elim
    | cons c rest =>
      rw [List.nil_append, List.append_nil, tokens, tokens]
      rcases Decidable.em (a.Opens c rest) with opens | plain
      · rw [if_pos opens, if_pos opens]
      · have ends := runs.resolve_left plain
        rw [if_neg plain, if_pos ends, if_neg plain, if_pos (a.skipped_of_ends c ends)]
  | cons c more ih =>
    obtain ⟨plain, goes, runs⟩ := runs
    rw [List.cons_append, tokens, if_neg plain, if_neg (by simp [goes]), ih runs, List.append_assoc]
    rfl

/-- The first word of a text is its first token. -/
theorem tokens_first {c : α} {more : List α} (skips : Skips a text (c :: (more ++ rest)))
    (begins : a.skipped c = false) (plain : ¬a.Opens c (more ++ rest)) (runs : Runs a more rest) :
    tokens a .between text = (c :: more, rest) :: tokens a .between rest := by
  rw [skips.read.1, tokens, if_neg plain, if_neg (by simp [begins]), tokens_runs runs]
  rfl

/-- The first token of a text is a word behind what is passed over. -/
theorem tokens_cons {w : List α} {later : List (List α × List α)} (same : tokens a .between text = (w, rest) :: later) :
    ∃ c more, w = c :: more ∧ Skips a text (c :: (more ++ rest)) ∧ a.skipped c = false ∧
      ¬a.Opens c (more ++ rest) ∧ Runs a more rest ∧ tokens a .between rest = later ∧
      (split a .between rest).2 = (split a .between text).2 := by
  have words := map_tokens (a := a) .between text
  rw [same, List.map_cons] at words
  obtain ⟨c, more, rest', rfl, skips, begins, plain, runs, behind⟩ :=
    split_first (Prod.ext words.symm rfl : split a .between text = (w :: later.map Prod.fst, _))
  have first := tokens_first skips begins plain runs
  rw [same, List.cons.injEq, Prod.mk.injEq] at first
  obtain ⟨⟨-, rfl⟩, rfl⟩ := first
  exact ⟨c, more, rfl, skips, begins, plain, runs, rfl, by rw [behind]⟩

/-- A word without the mark, and what separates it from the next one. -/
theorem split_plain {c : α} {more : List α} (begins : a.skipped c = false)
    (plain : ∀ d ∈ c :: more, d ≠ a.mark ∧ a.ends d = false) {d : α} (ends : a.ends d = true)
    (blank : ∀ e ∈ d :: gap, a.skipped e = true) : split a .between (c :: (more ++ d :: gap)) = ([c :: more], .between) := by
  obtain ⟨here, later⟩ := List.forall_mem_cons.mp plain
  rw [split, if_neg fun opens => here.1 opens.1, if_neg (by simp [begins]), split_runs (runs_plain later ends),
    split_skipped blank]
  rfl

/-- The words of a text are made of its characters. -/
theorem mem_split {w : List α} (member : w ∈ (split a mode text).1) {c : α} (inside : c ∈ w) :
    c ∈ text ∨ ∃ read, mode = .word read ∧ c ∈ read := by
  fun_induction split a mode text with
  | case1 => cases member
  | case2 rest ih =>
    rcases ih member with there | ⟨_, ⟨⟩, _⟩
    exact .inl (List.mem_cons_of_mem _ there)
  | case3 d rest apart ih =>
    rcases ih member with there | ⟨_, ⟨⟩, _⟩
    exact .inl (List.mem_cons_of_mem _ there)
  | case4 d rest opens ih =>
    rcases ih member with there | ⟨_, ⟨⟩, _⟩
    exact .inl (List.mem_cons_of_mem _ there)
  | case5 d rest opens passed ih =>
    rcases ih member with there | ⟨_, ⟨⟩, _⟩
    exact .inl (List.mem_cons_of_mem _ there)
  | case6 d rest opens starts ih =>
    rcases ih member with there | ⟨_, ⟨⟩, here⟩
    · exact .inl (List.mem_cons_of_mem _ there)
    · exact .inl (List.mem_singleton.mp here ▸ List.mem_cons_self)
  | case7 read d rest opens ih =>
    rcases List.mem_cons.mp member with rfl | later
    · exact .inr ⟨_, rfl, inside⟩
    · rcases ih later with there | ⟨_, ⟨⟩, _⟩
      exact .inl (List.mem_cons_of_mem _ there)
  | case8 read d rest opens ends ih =>
    rcases List.mem_cons.mp member with rfl | later
    · exact .inr ⟨_, rfl, inside⟩
    · rcases ih later with there | ⟨_, ⟨⟩, _⟩
      exact .inl (List.mem_cons_of_mem _ there)
  | case9 read d rest opens goes ih =>
    rcases ih member with there | ⟨_, ⟨⟩, here⟩
    · exact .inl (List.mem_cons_of_mem _ there)
    · rcases List.mem_append.mp here with old | new
      · exact .inr ⟨_, rfl, old⟩
      · exact .inl (List.mem_singleton.mp new ▸ List.mem_cons_self)

/-- The text ends between words, and has only words of this kind. -/
structure Only (a : Alphabet α) (P : List α → Prop) (text : List α) : Prop where
  closed : (split a .between text).2 = .between
  words : ∀ word ∈ (split a .between text).1, P word

namespace Only

variable {P : List α → Prop}

theorem skipped (blank : ∀ c ∈ gap, a.skipped c = true) : Only a P gap := by
  constructor <;> simp [split_skipped blank]

theorem plain {c : α} {more : List α} (begins : a.skipped c = false)
    (plain : ∀ d ∈ c :: more, d ≠ a.mark ∧ a.ends d = false) {d : α} (ends : a.ends d = true)
    (blank : ∀ e ∈ d :: gap, a.skipped e = true) (kind : P (c :: more)) : Only a P (c :: (more ++ d :: gap)) := by
  have same := split_plain begins plain ends blank
  exact ⟨by rw [same], by simpa [same] using kind⟩

theorem imp {Q : List α → Prop} (only : Only a P text)
    (weaker : ∀ word, (∀ c ∈ word, c ∈ text) → P word → Q word) : Only a Q text := by
  refine ⟨only.closed, fun word member => weaker word (fun c inside => ?_) (only.words word member)⟩
  exact (mem_split member inside).resolve_right fun ⟨_, begun, _⟩ => by cases begun

theorem append {more : List α} (first : Only a P text) (second : Only a P more) : Only a P (text ++ more) := by
  have same := split_append more first.closed
  refine ⟨by rw [same]; exact second.closed, fun word member => ?_⟩
  rw [same] at member
  exact (List.mem_append.mp member).elim (first.words word) (second.words word)

theorem flatMap {β : Type*} {parts : List β} {f : β → List α} (each : ∀ part ∈ parts, Only a P (f part)) :
    Only a P (parts.flatMap f) := by
  induction parts with
  | nil => exact ⟨rfl, fun _ member => absurd member List.not_mem_nil⟩
  | cons part parts ih =>
    obtain ⟨here, later⟩ := List.forall_mem_cons.mp each
    exact here.append (ih later)

end Only

end Words
