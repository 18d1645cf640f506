import GraphQuery.Draft.Pattern
import GraphQuery.Proofs.Draft.Filling

set_option autoImplicit false

/-! # Layout of texts

Brackets, lists and operators on plain texts, where every name is known. The text of a draft that is
laid out in some way is the text that is laid out so, and its mentions are those of its parts from
left to right.
-/

namespace GraphQuery

/-! ## Texts

The layouts of drafts, on characters: the same names for the same layouts, with the text of a
part in the place of its draft. The lemmas behind them are about lists with a separator between
two of them. -/

namespace Text

def commas (css : List (List Char)) : List Char := [',', ' '].intercalate css

def words (ws : List String) : List Char := [' '].intercalate (ws.map String.toList)

def parens (cs : List Char) : List Char := '(' :: (cs ++ [')'])

def parensIf (needed : Bool) (cs : List Char) : List Char := if needed then parens cs else cs

def brackets (cs : List Char) : List Char := '[' :: (cs ++ [']'])

def braces (cs : List Char) : List Char := '\x7b' :: (cs ++ ['\x7d'])

def binary (left op right : List Char) : List Char := left ++ ' ' :: (op ++ ' ' :: right)

def entry (key : String) (value : List Char) : List Char :=
  Name.written key ++ ':' :: ' ' :: value

end Text

theorem flatMap_intercalate {α β : Type} (f : α → List β) (sep : List α) (xss : List (List α)) :
    (sep.intercalate xss).flatMap f = (sep.flatMap f).intercalate (xss.map (·.flatMap f)) := by
  induction xss with
  | nil => rfl
  | cons xs xss ih =>
      cases xss with
      | nil => simp
      | cons ys yss =>
          rw [List.intercalate_cons_cons, List.flatMap_append, List.flatMap_append, ih]
          simp [List.intercalate_cons_cons]

theorem intercalate_nil_left {α : Type} (xss : List (List α)) :
    ([] : List α).intercalate xss = xss.flatten := by
  induction xss with
  | nil => rfl
  | cons xs xss ih =>
      cases xss with
      | nil => simp
      | cons ys yss =>
          rw [List.intercalate_cons_cons, ih, List.append_nil]
          rfl

/-- Lists with a separator between two of them are the first one, and the others with the separator
before each of them. -/
theorem intercalate_cons {α : Type} (sep xs : List α) (xss : List (List α)) :
    sep.intercalate (xs :: xss) = xs ++ xss.flatMap (sep ++ ·) := by
  induction xss generalizing xs with
  | nil => simp
  | cons ys xss ih =>
      rw [List.intercalate_cons_cons, ih, List.flatMap_cons, List.append_assoc, List.append_assoc]

theorem append_intercalate {α : Type} (sep : List α) {xss : List (List α)} (h : xss ≠ []) :
    sep ++ sep.intercalate xss = xss.flatMap (sep ++ ·) := by
  obtain ⟨xs, xss, rfl⟩ := List.exists_cons_of_ne_nil h
  rw [intercalate_cons, List.flatMap_cons, List.append_assoc]

theorem intercalate_cons_of_ne_nil {α : Type} (sep xs : List α) {xss : List (List α)}
    (h : xss ≠ []) : sep.intercalate (xs :: xss) = xs ++ (sep ++ sep.intercalate xss) := by
  rw [intercalate_cons, append_intercalate sep h]

/-- One list among others, with a separator between two of them. -/
theorem intercalate_append_cons {α : Type} (sep : List α) (xss : List (List α)) (ys : List α)
    (zss : List (List α)) :
    sep.intercalate (xss ++ ys :: zss) =
      xss.flatMap (· ++ sep) ++ (ys ++ zss.flatMap (sep ++ ·)) := by
  induction xss with
  | nil => exact intercalate_cons sep ys zss
  | cons xs xss ih =>
      obtain ⟨us, uss, hrest⟩ : ∃ us uss, xss ++ ys :: zss = us :: uss := by
        cases xss <;> exact ⟨_, _, rfl⟩
      rw [List.cons_append, hrest, List.intercalate_cons_cons, ← hrest, ih, List.flatMap_cons]
      simp

theorem mem_intercalate {α : Type} {sep xs : List α} {xss : List (List α)} {x : α} (hxs : xs ∈ xss)
    (hx : x ∈ xs) : x ∈ sep.intercalate xss := by
  induction xss with
  | nil => simp at hxs
  | cons ys yss ih =>
      cases yss with
      | nil =>
          rw [List.intercalate_singleton, ← List.mem_singleton.mp hxs]
          exact hx
      | cons zs zss =>
          rw [List.intercalate_cons_cons, List.mem_append, List.mem_append]
          rcases List.mem_cons.mp hxs with rfl | hxs
          · exact Or.inl (Or.inl hx)
          · exact Or.inr (ih hxs)

/-- What holds of all elements of a separator holds of all elements of what it stands in if it holds
of those of the lists that it separates. -/
theorem forall_mem_intercalate {α : Type} {P : α → Prop} {sep : List α} (hsep : ∀ x ∈ sep, P x)
    {xss : List (List α)} : (∀ x ∈ sep.intercalate xss, P x) ↔ ∀ xs ∈ xss, ∀ x ∈ xs, P x := by
  constructor
  · exact fun h xs hxs x hx => h x (mem_intercalate hxs hx)
  · intro h
    cases xss with
    | nil => simp [List.intercalate]
    | cons xs xss =>
        obtain ⟨hxs, hxss⟩ := List.forall_mem_cons.mp h
        rw [intercalate_cons, List.forall_mem_append, List.forall_mem_flatMap]
        exact ⟨hxs, fun ys hys => List.forall_mem_append.mpr ⟨hsep, hxss ys hys⟩⟩

namespace Draft

variable {n : Names} {p : Piece} {d e : Draft} {ds : List Draft}

/-! ## The text of a draft

One equation for each way of laying out a draft. As simp lemmas they turn the text of a draft
into a text that is laid out alike, down to the texts of the parts. -/

@[simp] theorem text_nil : text n [] = [] := rfl

@[simp] theorem text_cons : text n (p :: d) = p.written n ++ text n d := List.flatMap_cons

@[simp] theorem text_append : text n (d ++ e) = text n d ++ text n e := List.flatMap_append

@[simp] theorem written_word (t : String) : (word t).written n = t.toList := rfl

@[simp] theorem written_space : space.written n = [' '] := rfl

@[simp] theorem written_var (v : Variable) :
    (Piece.var v).written n = (Mention.var v).written n := rfl

theorem text_intercalate (sep : Draft) (ds : List Draft) :
    text n (sep.intercalate ds) = (text n sep).intercalate (ds.map (text n)) :=
  flatMap_intercalate _ _ _

@[simp] theorem text_commas : text n (commas ds) = Text.commas (ds.map (text n)) :=
  text_intercalate _ _

theorem words_eq_intercalate (ws : List String) :
    words ws = [space].intercalate (ws.map fun w => [word w]) := by
  induction ws with
  | nil => rfl
  | cons w ws ih =>
      cases ws with
      | nil => rfl
      | cons v vs =>
          rw [List.map_cons] at ih
          rw [List.map_cons, List.map_cons, List.intercalate_cons_cons, ← ih]
          rfl

@[simp] theorem text_words (ws : List String) : text n (words ws) = Text.words ws := by
  rw [words_eq_intercalate, text_intercalate, List.map_map]
  simp [Text.words, Function.comp_def]

@[simp] theorem text_parens : text n (parens d) = Text.parens (text n d) := by
  rw [parens, text_cons, text_append]
  rfl

@[simp] theorem text_parensIf (needed : Bool) :
    text n (parensIf needed d) = Text.parensIf needed (text n d) := by
  cases needed with
  | false => rfl
  | true => exact text_parens

@[simp] theorem text_brackets : text n (brackets d) = Text.brackets (text n d) := by
  rw [brackets, text_cons, text_append]
  rfl

@[simp] theorem text_braces : text n (braces d) = Text.braces (text n d) := by
  rw [braces, text_cons, text_append]
  rfl

@[simp] theorem text_binary (op : Draft) :
    text n (binary d op e) = Text.binary (text n d) (text n op) (text n e) := by
  rw [binary, text_append, text_cons, text_append, text_cons]
  rfl

/-- The texts of a list of drafts are those of its members. -/
theorem map_text_map {α : Type} {f : α → Draft} {g : α → List Char} {xs : List α}
    (h : ∀ x ∈ xs, text n (f x) = g x) : (xs.map f).map (text n) = xs.map g := by
  rw [List.map_map]
  exact List.map_congr_left h

/-! ## The mentions of a draft

Layout adds no mentions, so the mentions are those of the parts one after the other. -/

@[simp] theorem mentions_nil : mentions [] = [] := rfl

@[simp] theorem mentions_cons : mentions (p :: d) = p.mentions ++ mentions d := List.flatMap_cons

@[simp] theorem mentions_append : mentions (d ++ e) = mentions d ++ mentions e :=
  List.flatMap_append

@[simp] theorem mentions_var (v : Variable) : (Piece.var v).mentions = [.var v] := rfl

@[simp] theorem mentions_param (q : Param) : (Piece.param q).mentions = [.param q] := rfl

@[simp] theorem mentions_word (t : String) : (word t).mentions = [] := rfl

@[simp] theorem mentions_mark (t : String) : (mark t).mentions = [] := rfl

@[simp] theorem mentions_space : space.mentions = [] := rfl

@[simp] theorem mentions_name (role : NameRole) (raw : String) : (name role raw).mentions = [] := by
  unfold name
  split <;> rfl

/-- A separator without mentions leaves the mentions of what it separates. -/
theorem mentions_intercalate {sep : Draft} (hsep : mentions sep = []) (ds : List Draft) :
    mentions (sep.intercalate ds) = ds.flatMap mentions := by
  have hsep' : sep.flatMap Piece.mentions = [] := hsep
  rw [mentions, flatMap_intercalate, hsep', intercalate_nil_left, List.flatMap_def]
  rfl

@[simp] theorem mentions_commas : mentions (commas ds) = ds.flatMap mentions :=
  mentions_intercalate rfl ds

@[simp] theorem mentions_words (ws : List String) : mentions (words ws) = [] := by
  rw [words_eq_intercalate, mentions_intercalate rfl]
  simp

@[simp] theorem mentions_parens : mentions (parens d) = mentions d := by simp [parens]

@[simp] theorem mentions_parensIf (needed : Bool) : mentions (parensIf needed d) = mentions d := by
  cases needed with
  | false => rfl
  | true => exact mentions_parens

@[simp] theorem mentions_brackets : mentions (brackets d) = mentions d := by simp [brackets]

@[simp] theorem mentions_braces : mentions (braces d) = mentions d := by simp [braces]

@[simp] theorem mentions_binary {op : Draft} (hop : mentions op = []) :
    mentions (binary d op e) = mentions d ++ mentions e := by
  simp [binary, hop]

@[simp] theorem mentions_entry (role : NameRole) (key : String) :
    mentions (entry role key d) = mentions d := by simp [entry]

/-! ## Drafts without faults

A draft without faults has parts without faults. Only this direction is used: the text of a part
is looked at where the whole is known to be sound. -/

@[simp] theorem sound_cons : Sound (p :: d) ↔ p.isFault = false ∧ Sound d := List.forall_mem_cons

@[simp] theorem sound_append : Sound (d ++ e) ↔ Sound d ∧ Sound e := List.forall_mem_append

theorem Sound.of_intercalate {sep : Draft} (h : Sound (sep.intercalate ds)) (hd : d ∈ ds) :
    Sound d :=
  fun p hp => h p (mem_intercalate hd hp)

theorem Sound.of_commas (h : Sound (commas ds)) (hd : d ∈ ds) : Sound d := h.of_intercalate hd

theorem Sound.of_parens (h : Sound (parens d)) : Sound d := (sound_append.mp (sound_cons.mp h).2).1

theorem Sound.of_parensIf {needed : Bool} (h : Sound (parensIf needed d)) : Sound d := by
  cases needed with
  | false => exact h
  | true => exact h.of_parens

theorem Sound.of_brackets (h : Sound (brackets d)) : Sound d :=
  (sound_append.mp (sound_cons.mp h).2).1

theorem Sound.of_braces (h : Sound (braces d)) : Sound d := (sound_append.mp (sound_cons.mp h).2).1

theorem Sound.of_binary {op : Draft} (h : Sound (binary d op e)) : Sound d ∧ Sound e := by
  simp only [binary, sound_append, sound_cons] at h
  exact ⟨h.1, h.2.2.2.2⟩

/-- A name that is no fault is written. -/
theorem written_name {role : NameRole} {raw : String} (h : (name role raw).isFault = false) :
    (name role raw).written n = Name.written raw := by
  unfold name at h ⊢
  split
  next hempty => simp [hempty, Piece.isFault] at h
  · rfl

theorem text_entry {role : NameRole} {key : String} (h : Sound (entry role key d)) :
    text n (entry role key d) = Text.entry key (text n d) := by
  rw [entry, text_cons, written_name (sound_cons.mp h).1]
  rfl

theorem Sound.of_entry {role : NameRole} {key : String} (h : Sound (entry role key d)) : Sound d :=
  (sound_cons.mp (sound_cons.mp (sound_cons.mp h).2).2).2

end Draft

end GraphQuery
