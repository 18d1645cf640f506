import GraphQuery.Proofs.Draft.Refusal
import GraphQuery.Proofs.Print.Fault
import GraphQuery.Proofs.Value.Place

set_option autoImplicit false

/-! # What a literal reports

A draft without mentions is rendered up to its first fault, and leaves the scope as it is. In the
draft of a value the faults are those of its empty keys and of the parts that cannot be written, in
the order in which they are written. So an inline literal and the JSON form of a value fail at the
same part, unless there are empty keys, which only a literal refuses.
-/

namespace GraphQuery

def Piece.faults : Piece → List RenderError
  | .fault e => [e]
  | .lexeme _ | .var _ | .param _ => []

/-! ## The faults of a draft in order

In a draft without mentions nothing but faults can end the filling, so the first fault in the
list is the one that is reported, and there is none exactly if the draft is rendered. -/

namespace Draft

variable {p : Piece} {d e : Draft} {ds : List Draft}

/-- The faults in a draft, from left to right. -/
def faults (d : Draft) : List RenderError := d.flatMap Piece.faults

@[simp] theorem faults_nil : faults [] = [] := rfl

@[simp] theorem faults_cons : faults (p :: d) = p.faults ++ faults d := List.flatMap_cons

@[simp] theorem faults_append : faults (d ++ e) = faults d ++ faults e := List.flatMap_append

@[simp] theorem faults_mark (t : String) : (mark t).faults = [] := rfl

@[simp] theorem faults_space : space.faults = [] := rfl

theorem faults_name {role : NameRole} {raw : String} (h : raw ≠ "") :
    (name role raw).faults = [] := by
  rw [name, if_neg (mt String.isEmpty_iff.mp h)]
  rfl

@[simp] theorem faults_commas : faults (commas ds) = ds.flatMap faults := by
  have hsep : [mark ",", space].flatMap Piece.faults = [] := rfl
  rw [faults, commas, flatMap_intercalate, hsep, intercalate_nil_left, List.flatMap_def]
  rfl

@[simp] theorem faults_brackets : faults (brackets d) = faults d := by simp [brackets]

@[simp] theorem faults_braces : faults (braces d) = faults d := by simp [braces]

theorem faults_entry {role : NameRole} {key : String} (h : key ≠ "") :
    faults (entry role key d) = faults d := by
  simp [entry, faults_name h]

end Draft

namespace Scope

/-- A draft without mentions is filled in up to its first fault. -/
theorem fill_eq_of_faults {s : Scope} {d : Draft} (hd : d.mentions = []) {e : RenderError}
    {es : List RenderError} (h : d.faults = e :: es) : s.fill d = (.error e, s) := by
  induction d with
  | nil => simp at h
  | cons p d ih =>
      rw [Draft.mentions_cons, List.append_eq_nil_iff] at hd
      rw [Draft.faults_cons] at h
      cases p with
      | lexeme l =>
          simp only [fill, Piece.lexemeIn, ih hd.2 h]
          rfl
      | var v => simp at hd
      | param q => simp at hd
      | fault e' =>
          obtain ⟨rfl, -⟩ := List.cons.inj h
          rfl

theorem render_eq_of_faults {s : Scope} {d : Draft} (hd : d.mentions = []) {e : RenderError}
    {es : List RenderError} (h : d.faults = e :: es) : s.render d = (.error e, s) := by
  rw [render, fill_eq_of_faults hd h]
  rfl

end Scope

/-! ## Literals

The parts that cannot be written are found by one recursion for the JSON form and for the
literal. Their order is that of the entries, and with the entries in order it is that of places. -/

namespace Value

/-- Without empty keys the faults of a literal are those of the parts that cannot be written. -/
theorem faults_draft {v : Value} (h : "" ∉ v.keys) :
    v.draft.faults = v.unwritable.map fun k => .unsupported ⟨k, "inline literal"⟩ := by
  induction v with
  | null | boolean b | integer n | string s => simp [draft, unwritable, Piece.faults, Draft.word]
  | float x =>
      rw [draft, unwritable]
      split <;> rfl
  | list items ih =>
      rw [keys, List.mem_flatMap] at h
      rw [draft, draftItems_eq_map, unwritable, Draft.faults_brackets, Draft.faults_commas,
        List.flatMap_map, List.map_flatMap]
      exact List.flatMap_congr fun v hv => ih v hv fun hkey => h ⟨v, hv, hkey⟩
  | map entries ih =>
      rw [keys, List.mem_flatMap] at h
      rw [draft, draftEntries_eq_map, unwritable, Draft.faults_braces, Draft.faults_commas,
        List.flatMap_map, List.map_flatMap]
      refine List.flatMap_congr fun e he => ?_
      have hkey : e.1 ≠ "" := fun hkey => h ⟨e, he, hkey ▸ List.mem_cons_self⟩
      rw [Draft.faults_entry hkey]
      exact ih e he fun hkey => h ⟨e, he, List.mem_cons_of_mem _ hkey⟩
  | bytes data => rw [draft, unwritable]; rfl

/-- A literal is rendered if nothing in it is unwritable and no key is empty. -/
theorem exists_render_draft_iff {s : Scope} {v : Value} :
    (∃ text s', s.render v.draft = (.ok text, s')) ↔ v.unwritable = [] ∧ "" ∉ v.keys := by
  rw [Scope.exists_render_iff, v.mentions_draft, Draft.sound_iff, v.eachFault_draft]
  simp only [EachFault, Scope.nameAll, imp_false, ← List.eq_nil_iff_forall_not_mem]
  constructor
  · rintro ⟨⟨hkeys, hkinds⟩, -⟩
    exact ⟨hkinds, fun h => hkeys "" h rfl⟩
  · rintro ⟨hkinds, hkeys⟩
    refine ⟨⟨?_, hkinds⟩, s, rfl, by simp⟩
    rintro key hkey rfl
    exact hkeys hkey

theorem exists_toJson_iff (v : Value) (context : String) :
    (∃ j, v.toJson context = .ok j) ↔ v.unwritable = [] := by
  have hv := v.toJson_converts
  generalize v.unwritable = kinds at hv
  cases hv with
  | ok j h => simp [h]
  | error kind kinds h => simp [h]

theorem exists_toJson_error_iff (v : Value) (context : String) :
    (∃ e, v.toJson context = .error e) ↔ v.unwritable ≠ [] := by
  rw [ne_eq, ← exists_toJson_iff v context]
  cases v.toJson context <;> simp

/-- The fault of the JSON form is the first part that cannot be written. -/
theorem unwritable_of_toJson {v : Value} {context : String} {e : Unsupported}
    (h : v.toJson context = .error e) :
    e.context = context ∧ ∃ ks, v.unwritable = e.kind :: ks := by
  have hv := v.toJson_converts
  generalize v.unwritable = kinds at hv
  cases hv with
  | ok j hj => simp [hj] at h
  | error kind kinds herror =>
      obtain rfl := Except.error.inj ((herror context).symm.trans h)
      exact ⟨rfl, kinds, rfl⟩

/-- **The JSON form and the literal of a value fail alike.** A value has no JSON form if a part of
it, at some depth, is a byte array or a floating-point number that is not finite; what is reported
is the first such part, with the context that was given. The literal is rendered if the value has a
JSON form and no key in it is empty. If no key is empty, it reports the kind that the JSON form
reports. -/
theorem json_literal_agree {v : Value} (hv : v.Ordered) (context : String) (s : Scope) :
    ((∃ e, v.toJson context = .error e) ↔ ∃ p k, v.FaultAt p k) ∧
    (∀ e, v.toJson context = .error e →
      e.context = context ∧ ∃ p, v.FirstFaultAt p e.kind) ∧
    ((∃ text s', s.render v.draft = (.ok text, s')) ↔
      (∃ j, v.toJson context = .ok j) ∧ "" ∉ v.keys) ∧
    ("" ∉ v.keys → ∀ e, v.toJson context = .error e →
      s.render v.draft = (.error (.unsupported ⟨e.kind, "inline literal"⟩), s)) := by
  refine ⟨(exists_toJson_error_iff v context).trans (unwritable_ne_nil_iff hv), ?_, ?_, ?_⟩
  · intro e he
    obtain ⟨hcontext, ks, hks⟩ := unwritable_of_toJson he
    exact ⟨hcontext, firstFaultAt_of_unwritable hv hks⟩
  · rw [exists_render_draft_iff, exists_toJson_iff]
  · intro hkeys e he
    obtain ⟨-, ks, hks⟩ := unwritable_of_toJson he
    have hfaults := faults_draft hkeys
    rw [hks, List.map_cons] at hfaults
    exact Scope.render_eq_of_faults v.mentions_draft hfaults

/-- Of two parts of a map that cannot be written the one under the lesser key is reported, although
the other one stands less deep. -/
theorem json_literal_agree_map :
    (∃ p, (map [("a", .list [.null, .bytes [1]]),
      ("b", .float ⟨0x7ff0000000000000⟩)]).FirstFaultAt p .byteArray) ∧
    (Scope.new .standard).render (map [("a", .list [.null, .bytes [1]]),
      ("b", .float ⟨0x7ff0000000000000⟩)]).draft =
        (.error (.unsupported ⟨.byteArray, "inline literal"⟩), Scope.new .standard) := by
  have hv : (map [("a", .list [.null, .bytes [1]]),
      ("b", .float ⟨0x7ff0000000000000⟩)]).Ordered := by
    have hkeys : "a" < "b" := String.lt_iff_toList_lt.mpr (by decide)
    rw [Ordered]
    exact ⟨List.pairwise_pair.mpr hkeys, by simp [Ordered]⟩
  obtain ⟨-, hfirst, -, hliteral⟩ := json_literal_agree hv "params" (Scope.new .standard)
  refine ⟨(hfirst ⟨.byteArray, "params"⟩ rfl).2, hliteral ?_ ⟨.byteArray, "params"⟩ rfl⟩
  simp [keys]

end Value

end GraphQuery
