import GraphQuery.Proofs.Print.Layout
import GraphQuery.Proofs.Scope.History

set_option autoImplicit false

/-! # Other identities

A renaming puts other numbers in the place of those that tell variables and parameters apart, and
other values in the place of those that parameters stand for; explicit names and kinds stay. While
it keeps apart what is mentioned, it commutes with naming, and so a draft with other identities is
filled in with the same lexemes and leaves the same scope with the other identities
(`Scope.fill_rename`).
-/

namespace GraphQuery

/-! ## Renamings

A renaming is given by three functions, with no condition on them. What it has to keep apart
depends on the draft, so this is a condition on a list of mentions. -/

/-- Other numbers for variables and parameters, and other values for parameters. -/
structure Renaming where
  varId : Variable → Nat
  paramId : Param → Nat
  value : Param → Value

namespace Renaming

variable {r : Renaming} {ms : List Mention}

def var (r : Renaming) (v : Variable) : Variable := ⟨r.varId v, v.kind, v.name?⟩

/-- An alias under its other number. -/
def plain (r : Renaming) (a : Alias) : Alias := ⟨r.varId a.toVar, a.name?⟩

/-- A parameter under its other number with its other value. -/
def param (r : Renaming) (p : Param) : Param := ⟨r.paramId p, p.name?, r.value p⟩

def mention (r : Renaming) : Mention → Mention
  | .var v => .var (r.var v)
  | .param p => .param (r.param p)

/-- A renaming under which different mentions stay different. -/
def Separates (r : Renaming) (ms : List Mention) : Prop := Set.InjOn r.mention {m | m ∈ ms}

theorem Separates.vars (h : r.Separates ms) : Set.InjOn r.var {v | .var v ∈ ms} :=
  fun _ hv _ hw heq => Mention.var.inj (h hv hw (congrArg Mention.var heq))

theorem Separates.params (h : r.Separates ms) : Set.InjOn r.param {p | .param p ∈ ms} :=
  fun _ hp _ hq heq => Mention.param.inj (h hp hq (congrArg Mention.param heq))

end Renaming

/-! ## Drafts

Renaming is a map over pieces and leaves lexemes alone. It therefore passes through all layout
that has no mentions in it. -/

/-- A piece with other identities. -/
def Piece.rename (r : Renaming) : Piece → Piece
  | .lexeme l => .lexeme l
  | .var v => .var (r.var v)
  | .param p => .param (r.param p)
  | .fault e => .fault e

namespace Draft

def rename (r : Renaming) (d : Draft) : Draft := d.map (Piece.rename r)

variable {r : Renaming} {p : Piece} {d e : Draft} {ds : List Draft}

@[simp] theorem rename_nil : rename r [] = [] := rfl

@[simp] theorem rename_cons : rename r (p :: d) = p.rename r :: rename r d := rfl

@[simp] theorem rename_append : rename r (d ++ e) = rename r d ++ rename r e := List.map_append

@[simp] theorem renamePiece_var (v : Variable) : (Piece.var v).rename r = .var (r.var v) := rfl

@[simp] theorem renamePiece_param (q : Param) : (Piece.param q).rename r = .param (r.param q) := rfl

@[simp] theorem renamePiece_word (t : String) : (word t).rename r = word t := rfl

@[simp] theorem renamePiece_mark (t : String) : (mark t).rename r = mark t := rfl

@[simp] theorem renamePiece_space : space.rename r = space := rfl

@[simp] theorem renamePiece_name (role : NameRole) (raw : String) :
    (name role raw).rename r = name role raw := by
  unfold name
  split <;> rfl

/-- A draft without mentions has no identities. -/
theorem rename_of_mentions_eq_nil (h : mentions d = []) : rename r d = d := by
  induction d with
  | nil => rfl
  | cons p d ih =>
      rw [mentions_cons, List.append_eq_nil_iff] at h
      rw [rename_cons, ih h.2]
      cases p with
      | lexeme l | fault e => rfl
      | var v | param q => simp at h

theorem rename_intercalate {sep : Draft} (hsep : mentions sep = []) (ds : List Draft) :
    rename r (sep.intercalate ds) = sep.intercalate (ds.map (rename r)) := by
  have hmap : ∀ d : Draft, rename r d = d.flatMap fun p => [p.rename r] := fun d =>
    List.map_eq_flatMap
  conv_rhs => rw [← rename_of_mentions_eq_nil (r := r) hsep]
  rw [hmap, flatMap_intercalate, hmap, List.map_congr_left fun d _ => hmap d]

@[simp] theorem rename_commas : rename r (commas ds) = commas (ds.map (rename r)) :=
  rename_intercalate rfl ds

@[simp] theorem rename_words (ws : List String) : rename r (words ws) = words ws :=
  rename_of_mentions_eq_nil (mentions_words ws)

@[simp] theorem rename_parens : rename r (parens d) = parens (rename r d) := by simp [parens]

@[simp] theorem rename_parensIf (needed : Bool) :
    rename r (parensIf needed d) = parensIf needed (rename r d) := by
  cases needed with
  | false => rfl
  | true => exact rename_parens

@[simp] theorem rename_brackets : rename r (brackets d) = brackets (rename r d) := by
  simp [brackets]

@[simp] theorem rename_braces : rename r (braces d) = braces (rename r d) := by simp [braces]

theorem rename_binary {op : Draft} (hop : mentions op = []) :
    rename r (binary d op e) = binary (rename r d) op (rename r e) := by
  simp [binary, rename_of_mentions_eq_nil hop]

@[simp] theorem rename_entry (role : NameRole) (key : String) :
    rename r (entry role key d) = entry role key (rename r d) := by simp [entry]

/-- The drafts of a list with other identities are those of its renamed members. -/
theorem map_rename_map {α : Type} {f : α → Draft} {g : α → α} {xs : List α}
    (h : ∀ x ∈ xs, f (g x) = rename r (f x)) : (xs.map f).map (rename r) = (xs.map g).map f := by
  rw [List.map_map, List.map_map]
  exact List.map_congr_left fun x hx => (h x hx).symm

end Draft

/-! ## Naming

To name a renamed mention means to look it up among renamed owners, and looking up compares. The
comparison has the same outcome as long as the owners in the table and the mention are all among
the mentions that are kept apart, which is what `Scope.OwnedBy` carries along. -/

/-- A condition on the owners in a table stays if a name is given to an owner that meets it. -/
theorem NameTable.forall_owner_name {α : Type} [DecidableEq α] (P : α → Prop) {t : NameTable α}
    {stem : String} {explicit? : Option String} {owner : α} {n : Naming α}
    (h : t.name stem explicit? owner = .ok n) (ht : ∀ e ∈ t.entries, P e.1) (howner : P owner) :
    ∀ e ∈ n.table.entries, P e.1 := by
  obtain ⟨-, hsame⟩ | ⟨-, -, happend, -⟩ := name_cases h
  · rw [hsame]
    exact ht
  · rw [happend, List.forall_mem_append, List.forall_mem_singleton]
    exact ⟨ht, howner⟩

namespace Scope

def rename (r : Renaming) (s : Scope) : Scope :=
  ⟨s.settings, s.vars.map r.var, s.params.map r.param, s.passedOver⟩

/-- A scope that names nothing but some mentions. -/
structure OwnedBy (s : Scope) (ms : List Mention) : Prop where
  vars : ∀ e ∈ s.vars.entries, .var e.1 ∈ ms
  params : ∀ e ∈ s.params.entries, .param e.1 ∈ ms

variable {r : Renaming} {s : Scope} {m : Mention} {ms : List Mention}

theorem ownedBy_new (settings : Settings) (ms : List Mention) : (new settings).OwnedBy ms where
  vars := by simp [new, NameTable.empty]
  params := by simp [new, NameTable.empty]

theorem rename_new (settings : Settings) : (new settings).rename r = new settings := rfl


/-- Naming one of the mentions names nothing else. -/
theorem OwnedBy.name (hs : s.OwnedBy ms) (hm : m ∈ ms) : (s.name m).2.OwnedBy ms := by
  obtain ⟨hvars, hparams⟩ := hs
  cases m with
  | var v =>
      simp only [Scope.name, nameVar]
      split
      next n hn => exact ⟨NameTable.forall_owner_name (.var · ∈ ms) hn hvars hm, hparams⟩
      · exact ⟨hvars, hparams⟩
  | param p =>
      simp only [Scope.name, nameParam]
      split
      next n hn => exact ⟨hvars, NameTable.forall_owner_name (.param · ∈ ms) hn hparams hm⟩
      · exact ⟨hvars, hparams⟩

/-- Naming commutes with a renaming that keeps apart what has a name and what is given one. -/
theorem name_rename (hr : r.Separates ms) (hs : s.OwnedBy ms) (hm : m ∈ ms) :
    (s.rename r).name (r.mention m) = ((s.name m).1, (s.name m).2.rename r) := by
  cases m with
  | var v =>
      have hv : v ∈ {v | .var v ∈ ms} := hm
      have htable := NameTable.name_map hr.vars hs.vars hv
        (s.settings.prefixFor v.kind) v.name?
      have hsame : (s.rename r).vars.name ((s.rename r).settings.prefixFor (r.var v).kind)
          (r.var v).name? (r.var v) = _ := htable
      simp only [Scope.name, Renaming.mention, nameVar, hsame]
      cases s.vars.name (s.settings.prefixFor v.kind) v.name? v <;> rfl
  | param p =>
      have hp : p ∈ {p | .param p ∈ ms} := hm
      have htable := NameTable.name_map hr.params hs.params hp
        s.settings.paramPrefix p.name?
      have hsame : (s.rename r).params.name (s.rename r).settings.paramPrefix
          (r.param p).name? (r.param p) = _ := htable
      simp only [Scope.name, Renaming.mention, nameParam, hsame]
      cases s.params.name s.settings.paramPrefix p.name? p <;> rfl

/-! ## Filling

The induction is on the draft, with the scope generalised. Each step needs that the scope still
names nothing but mentions of the whole draft. -/

variable {p : Piece} {d : Draft}

theorem OwnedBy.lexemeIn (hs : s.OwnedBy ms) (hp : p.mentions ⊆ ms) :
    (p.lexemeIn s).2.OwnedBy ms := by
  cases p with
  | lexeme l | fault e => exact hs
  | var v => exact hs.name (m := .var v) (hp (List.mem_singleton_self _))
  | param q => exact hs.name (m := .param q) (hp (List.mem_singleton_self _))

theorem lexemeIn_rename (hr : r.Separates ms) (hs : s.OwnedBy ms) (hp : p.mentions ⊆ ms) :
    (p.rename r).lexemeIn (s.rename r) = ((p.lexemeIn s).1, (p.lexemeIn s).2.rename r) := by
  cases p with
  | lexeme l | fault e => rfl
  | var v =>
      have hname := name_rename hr hs (m := .var v) (hp (List.mem_singleton_self _))
      have hsame : (s.rename r).nameVar (r.var v) = _ := hname
      simp only [Piece.rename, Piece.lexemeIn, hsame]
      rfl
  | param q =>
      have hname := name_rename hr hs (m := .param q) (hp (List.mem_singleton_self _))
      have hsame : (s.rename r).nameParam (r.param q) = _ := hname
      simp only [Piece.rename, Piece.lexemeIn, hsame]
      rfl

/-- **Filling does not look at identities.** A draft with other identities has the lexemes or the
fault that the draft has, and leaves the same scope with the other identities. -/
theorem fill_rename (hr : r.Separates ms) (hs : s.OwnedBy ms) (hd : d.mentions ⊆ ms) :
    (s.rename r).fill (d.rename r) = ((s.fill d).1, (s.fill d).2.rename r) := by
  induction d generalizing s with
  | nil => rfl
  | cons p d ih =>
      rw [Draft.mentions_cons, List.append_subset] at hd
      have hpiece := lexemeIn_rename hr hs hd.1
      have hrest := ih (hs.lexemeIn hd.1) hd.2
      rw [Draft.rename_cons, fill, fill, hpiece]
      rcases hp : p.lexemeIn s with ⟨_ | l, t⟩
      · rfl
      · rw [hp] at hrest
        simp only [hrest]

theorem rename_render (hr : r.Separates ms) (hs : s.OwnedBy ms) (hd : d.mentions ⊆ ms) :
    (s.rename r).render (d.rename r) = ((s.render d).1, (s.render d).2.rename r) := by
  simp only [render, fill_rename hr hs hd]

end Scope

end GraphQuery
