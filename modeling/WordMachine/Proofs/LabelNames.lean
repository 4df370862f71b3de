import Mathlib.Algebra.Group.Nat.Defs
import Std.Data.TreeMap.Lemmas
import WordMachine.Proofs.Coverage
import WordMachine.Proofs.Lossless

/-!
# The names of positions

`Flow.LabelMap.ofEdges` goes through the edges in the order in which they have been discovered and
then through the entries.  A call overwrites the name that its target has, a jump and an entry only
name what has no name yet.  So a name is settled by the calls if there are any, else by the jumps,
else by the entries, and the order in which they come makes no difference (`getElem?_ofEdges`).

The kind of a name and the position can be read off the name (`labelName_injective`), so no name is
given twice.
-/

namespace WordMachine

/-! ## Hexadecimal digits -/

namespace Text

/-- A text shows a number in lowercase hexadecimal digits, with as many zeros in front of them as it
takes to fill a width. -/
structure ShowsHex (width n : Nat) (s : String) : Prop where
  lowercase : ∀ ch ∈ s.toList, ch ∈ "0123456789abcdef".toList
  value : magnitude 16 (n + 1) 0 s.toList = .ok n
  length_le_iff : ∀ k, 0 < k → (s.toList.length ≤ k ↔ width ≤ k ∧ n < 16 ^ k)

theorem showsHex_hexPadded (width n : Nat) : ShowsHex width n (hexPadded width n) := by
  have hdigits : ∀ d < 16, Nat.digitChar d ∈ "0123456789abcdef".toList := by decide
  have hlist : (hexPadded width n).toList = (Nat.toDigits 16 n).leftpad width '0' := by
    rw [hexPadded, padLeft, hex, String.toList_ofList, String.toList_ofList]
  refine ⟨fun ch hch => ?_, ?_, fun k hk => ?_⟩
  · rw [hlist, List.leftpad, List.mem_append] at hch
    rcases hch with hzero | hdigit
    · rw [List.eq_of_mem_replicate hzero]
      exact hdigits 0 (by decide)
    · obtain ⟨d, hd, rfl⟩ := exists_digitChar_of_mem_toDigits (by decide) hdigit
      exact hdigits d hd
  · rw [hlist, magnitude_leftpad (Nat.succ_pos n), magnitude_toDigits_hex (Nat.lt_succ_self n)]
  · rw [hlist, List.length_leftpad, Nat.max_le, Nat.length_toDigits_le_iff (by decide) hk]

end Text

namespace Flow

variable {c : CodeMap} {edges : List Edge} {entries : List Nat} {labels : LabelMap} {t : Nat}
  {name : String}

/-! ## Names -/

/-- The names of different kinds differ in their first letter, those of one kind in the digits. -/
theorem labelName_injective {kind kind' : LabelKind} {t t' : Nat}
    (hsame : labelName kind t = labelName kind' t') : kind = kind' ∧ t = t' := by
  have hhead : ∀ (kind : LabelKind) (n : Nat),
      (labelName kind n).toList.head? = kind.stem.toList.head? := by
    intro kind n
    cases kind <;> exact Text.head?_append rfl _
  have hstem : kind.stem.toList.head? = kind'.stem.toList.head? := by
    rw [← hhead kind t, ← hhead kind' t', hsame]
  obtain rfl : kind = kind' := by
    revert hstem
    cases kind <;> cases kind' <;> decide
  exact ⟨rfl, Text.hexPadded_injective 4 ((String.append_right_inj _).mp hsame)⟩

theorem name?_eq_some_iff {kind : LabelKind} :
    labels.name? t = some (labelName kind t) ↔ labels[t]? = some kind := by
  rw [LabelMap.name?, Option.map_eq_some_iff]
  constructor
  · rintro ⟨kind', hlabel, hname⟩
    rwa [(labelName_injective hname).1] at hlabel
  · intro hlabel
    exact ⟨kind, hlabel, rfl⟩

/-- No name is given twice. -/
theorem name?_injective {t' : Nat} (hname : labels.name? t = some name)
    (hname' : labels.name? t' = some name) : t = t' := by
  obtain ⟨kind, -, rfl⟩ := Option.map_eq_some_iff.mp hname
  obtain ⟨kind', -, hsame⟩ := Option.map_eq_some_iff.mp hname'
  exact (labelName_injective hsame).2.symm

theorem mem_named_iff : (t, name) ∈ labels.named ↔ labels.name? t = some name := by
  rw [LabelMap.named, LabelMap.name?, List.mem_map, Option.map_eq_some_iff]
  constructor
  · rintro ⟨⟨i, kind⟩, hmem, heq⟩
    cases heq
    exact ⟨kind, Std.TreeMap.mem_toList_iff_getElem?_eq_some.mp hmem, rfl⟩
  · rintro ⟨kind, hlabel, rfl⟩
    exact ⟨(t, kind), Std.TreeMap.mem_toList_iff_getElem?_eq_some.mpr hlabel, rfl⟩

/-- The positions with names are listed in ascending order. -/
theorem pairwise_named (labels : LabelMap) : (labels.named.map Prod.fst).Pairwise (· < ·) := by
  have hkeys : labels.named.map Prod.fst = labels.keys := by
    rw [LabelMap.named, List.map_map, ← Std.TreeMap.map_fst_toList_eq_keys]
    rfl
  rw [hkeys]
  exact Std.TreeMap.ordered_keys.imp Nat.compare_eq_lt.mp

/-! ## What an edge and what an entry does -/

/-- What an edge of a kind makes of the label of the position that it leads to. -/
def EdgeKind.relabel : EdgeKind → Option LabelKind → Option LabelKind
  | .call, _ => some .sub
  | .branch, label | .condBranch, label => label.or (some .loc)
  | .fallthrough, label => label

theorem getElem?_insertIfNew (labels : LabelMap) (i t : Nat) (kind : LabelKind) :
    (labels.insertIfNew i kind)[t]? =
      if i = t then labels[t]?.or (some kind) else labels[t]? := by
  simp only [Std.TreeMap.getElem?_insertIfNew, Std.TreeMap.mem_iff_isSome_getElem?]
  by_cases hsame : i = t
  · subst hsame
    cases hlabel : labels[i]? <;> simp
  · simp [hsame]

theorem getElem?_addEdge (c : CodeMap) (labels : LabelMap) (e : Edge) (t : Nat) :
    (labels.addEdge c e)[t]? =
      if c.landing? e = some t then e.kind.relabel labels[t]? else labels[t]? := by
  unfold LabelMap.addEdge
  cases c.landing? e with
  | none => rfl
  | some i =>
      simp only [Option.some.injEq]
      cases e.kind with
      | call => simp [EdgeKind.relabel, Std.TreeMap.getElem?_insert]
      | branch | condBranch => exact getElem?_insertIfNew ..
      | fallthrough => simp [EdgeKind.relabel]

/-! ## Who names a position -/

/-- An instruction starts at a position, and an edge of one of certain kinds leads there. -/
def LedTo (c : CodeMap) (kinds : List EdgeKind) (edges : List Edge) (t : Nat) : Prop :=
  c.starts.has t = true ∧ ∃ e ∈ edges, e.target = t ∧ e.kind ∈ kinds

instance (c : CodeMap) (kinds : List EdgeKind) (edges : List Edge) (t : Nat) :
    Decidable (LedTo c kinds edges t) :=
  inferInstanceAs (Decidable (_ ∧ _))

theorem ledTo_cons_iff {kinds : List EdgeKind} {e : Edge} :
    LedTo c kinds (e :: edges) t ↔
      (c.landing? e = some t ∧ e.kind ∈ kinds) ∨ LedTo c kinds edges t := by
  simp only [LedTo, landing?_eq_some_iff, List.mem_cons, exists_eq_or_imp]
  tauto

/-- A call settles the name, wherever it stands among the edges; a jump names what has no name. -/
theorem getElem?_foldl_addEdge (c : CodeMap) (edges : List Edge) (labels : LabelMap) (t : Nat) :
    (edges.foldl (LabelMap.addEdge c) labels)[t]? =
      if LedTo c [.call] edges t then some .sub
      else labels[t]?.or (if LedTo c [.branch, .condBranch] edges t then some .loc else none) := by
  induction edges generalizing labels with
  | nil => simp [LedTo]
  | cons e edges ih =>
      rw [List.foldl_cons, ih, getElem?_addEdge]
      simp only [ledTo_cons_iff]
      by_cases hland : c.landing? e = some t
      · by_cases hcalled : LedTo c [.call] edges t
        · simp [hcalled]
        · -- what the edge itself does remains, for each kind of edge
          cases hkind : e.kind <;> simp [hland, hcalled, EdgeKind.relabel]
      · simp [hland]

theorem getElem?_foldl_addEntry (entries : List Nat) (labels : LabelMap) (t : Nat) :
    (entries.foldl LabelMap.addEntry labels)[t]? =
      labels[t]?.or (if t ∈ entries then some .entry else none) := by
  induction entries generalizing labels with
  | nil => simp
  | cons i entries ih =>
      rw [List.foldl_cons, ih, LabelMap.addEntry, getElem?_insertIfNew]
      by_cases hsame : i = t
      · simp [hsame]
      · simp [hsame, Ne.symm hsame]

/-- The label of a position depends on whether there are calls to it, jumps to it and entries at it,
and on nothing else. -/
theorem getElem?_ofEdges (c : CodeMap) (edges : List Edge) (entries : List Nat) (t : Nat) :
    (LabelMap.ofEdges c edges entries)[t]? =
      if LedTo c [.call] edges t then some .sub
      else if LedTo c [.branch, .condBranch] edges t then some .loc
      else if t ∈ entries then some .entry
      else none := by
  rw [LabelMap.ofEdges, getElem?_foldl_addEntry, getElem?_foldl_addEdge,
    Std.TreeMap.getElem?_emptyc, Option.none_or]
  split
  · rfl
  · split <;> rfl

/-! ## The map of names -/

/-- A map gives positions the names that edges and entries call for, and no others. -/
structure Names (c : CodeMap) (edges : List Edge) (entries : List Nat) (labels : LabelMap) :
    Prop where
  sub : ∀ t, labels.name? t = some ("sub_" ++ Text.hexPadded 4 t) ↔ LedTo c [.call] edges t
  loc : ∀ t, labels.name? t = some ("loc_" ++ Text.hexPadded 4 t) ↔
    ¬ LedTo c [.call] edges t ∧ LedTo c [.branch, .condBranch] edges t
  entry : ∀ t, labels.name? t = some ("entry_" ++ Text.hexPadded 4 t) ↔
    ¬ LedTo c [.call] edges t ∧ ¬ LedTo c [.branch, .condBranch] edges t ∧ t ∈ entries
  unnamed : ∀ t, labels.name? t = none ↔
    ¬ LedTo c [.call] edges t ∧ ¬ LedTo c [.branch, .condBranch] edges t ∧ t ∉ entries

theorem names_ofEdges (c : CodeMap) (edges : List Edge) (entries : List Nat) :
    Names c edges entries (LabelMap.ofEdges c edges entries) where
  sub t := by
    show (LabelMap.ofEdges c edges entries).name? t = some (labelName .sub t) ↔ _
    rw [name?_eq_some_iff, getElem?_ofEdges]
    split_ifs <;> simp [*]
  loc t := by
    show (LabelMap.ofEdges c edges entries).name? t = some (labelName .loc t) ↔ _
    rw [name?_eq_some_iff, getElem?_ofEdges]
    split_ifs <;> simp [*]
  entry t := by
    show (LabelMap.ofEdges c edges entries).name? t = some (labelName .entry t) ↔ _
    rw [name?_eq_some_iff, getElem?_ofEdges]
    split_ifs <;> simp [*]
  unnamed t := by
    rw [LabelMap.name?, Option.map_eq_none_iff, getElem?_ofEdges]
    split_ifs <;> simp [*]

/-- The names depend only on which edges and which entries there are.  The map lists each of them
once, in the order of the positions, and no two positions have the same name. -/
theorem names_of_edge_set (c : CodeMap) (edges : List Edge) (entries : List Nat) :
    Names c edges entries (LabelMap.ofEdges c edges entries) ∧
      (∀ t, Text.ShowsHex 4 t (Text.hexPadded 4 t)) ∧
      ((LabelMap.ofEdges c edges entries).named.map Prod.fst).Pairwise (· < ·) ∧
      (∀ t name, (t, name) ∈ (LabelMap.ofEdges c edges entries).named ↔
        (LabelMap.ofEdges c edges entries).name? t = some name) ∧
      (∀ edges' entries', (∀ e, e ∈ edges' ↔ e ∈ edges) → (∀ i, i ∈ entries' ↔ i ∈ entries) →
        (LabelMap.ofEdges c edges' entries').Equiv (LabelMap.ofEdges c edges entries) ∧
        (LabelMap.ofEdges c edges' entries').named = (LabelMap.ofEdges c edges entries).named) ∧
      ∀ t t' name, (LabelMap.ofEdges c edges entries).name? t = some name →
        (LabelMap.ofEdges c edges entries).name? t' = some name → t = t' := by
  refine ⟨names_ofEdges c edges entries, Text.showsHex_hexPadded 4, pairwise_named _,
    fun t name => mem_named_iff, ?_, fun t t' name => name?_injective⟩
  intro edges' entries' hedges hentries
  have hsame : (LabelMap.ofEdges c edges' entries').Equiv (LabelMap.ofEdges c edges entries) := by
    refine Std.TreeMap.Equiv.of_forall_constGet?_eq fun t => ?_
    have hled : ∀ kinds, LedTo c kinds edges' t ↔ LedTo c kinds edges t := fun kinds => by
      simp only [LedTo, hedges]
    rw [getElem?_ofEdges, getElem?_ofEdges]
    exact if_congr (hled _) rfl (if_congr (hled _) rfl (if_congr (hentries t) rfl rfl))
  refine ⟨hsame, ?_⟩
  unfold LabelMap.named
  rw [hsame.toList_eq]

/-- A call names its target whether it comes before a jump or after it, and however often. -/
theorem names_of_edge_set_of_reordered :
    (LabelMap.ofEdges (.ofProgram ⟨#[18, 7, 32]⟩)
      [⟨9, 0, .call⟩, ⟨4, 0, .branch⟩, ⟨9, 0, .call⟩] [2, 0, 2]).named =
        [(0, "sub_0000"), (2, "entry_0002")] := by
  obtain ⟨-, -, -, -, hsame, -⟩ := names_of_edge_set (.ofProgram ⟨#[18, 7, 32]⟩)
    [⟨4, 0, .branch⟩, ⟨9, 0, .call⟩] [0, 2]
  obtain ⟨-, hnamed⟩ := hsame [⟨9, 0, .call⟩, ⟨4, 0, .branch⟩, ⟨9, 0, .call⟩] [2, 0, 2]
    (fun e => by simp only [List.mem_cons, List.not_mem_nil, or_false]; tauto)
    (fun i => by simp only [List.mem_cons, List.not_mem_nil, or_false]; tauto)
  rw [hnamed]
  decide +kernel

end Flow

end WordMachine
