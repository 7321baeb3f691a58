import SafeMarkup.Markup.NameIndex
import SafeMarkup.Proofs.Numbering
/-!
# Numbers of names

The row of an index and its map say the same (`NameIndex.Agrees`), whatever names are asked for, so an index does what
the table of its names does (`NameIndex.Agrees.intern`).  As long as there are no more names than words, numbers and
names in lower case determine each other (`NameIndex.internAll_numbers`).
-/
namespace SafeMarkup

theorem Text.fold_eq_self_iff {t : Text} : fold t = t ↔ ∀ c ∈ t, c.isUpper = false := by
  refine ⟨fun h c hc => ?_, fold_eq_self⟩
  rw [← h] at hc
  obtain ⟨d, -, rfl⟩ := List.mem_map.1 hc
  exact Char.isUpper_toLower_eq_false d

/-- In a row without repetitions a name is first found where it stands. -/
theorem idxOf?_eq_some_iff_of_nodup {names : List Text} (h : names.Nodup) {name : Text} {k : Nat} :
    names.idxOf? name = some k ↔ names[k]? = some name := by
  rw [List.idxOf?_eq_some_iff, List.getElem?_eq_some_iff]
  refine ⟨fun ⟨hk, hname, _⟩ => ⟨hk, hname⟩, fun ⟨hk, hname⟩ => ⟨hk, hname, fun j hj he => ?_⟩⟩
  exact absurd ((h.getElem_inj_iff).1 (he.trans hname.symm)) (Nat.ne_of_lt hj)

theorem idxOf?_concat (names : List Text) (last name : Text) : (names ++ [last]).idxOf? name =
    (names.idxOf? name).or (if last == name then some names.length else none) := by
  unfold List.idxOf?
  rw [List.findIdx?_append, List.findIdx?_singleton]
  cases last == name <;> simp

theorem eraseDups_of_nodup {names : List Text} (h : names.Nodup) : names.eraseDups = names := by
  induction names with
  | nil => rfl
  | cons name names ih =>
    rw [List.nodup_cons] at h
    have hfilter : names.filter (fun b => !b == name) = names := List.filter_eq_self.2 fun b hb => by
      rw [Bool.not_eq_true', beq_eq_false_iff_ne]
      rintro rfl
      exact h.1 hb
    rw [List.eraseDups_cons, hfilter, ih h.2]

theorem eraseDups_append_cons_of_mem {names : List Text} {name : Text} (h : name ∈ names) (rest : List Text) :
    (names ++ name :: rest).eraseDups = (names ++ rest).eraseDups := by
  rw [List.eraseDups_append, List.eraseDups_append, List.cons_removeAll, if_neg (by simpa using h)]

namespace NameTable

theorem names_insert (t : NameTable) (name : Text) : (t.insert name).2.names =
    if Text.fold name ∈ t.names then t.names else t.names ++ [Text.fold name] := by
  rw [insert]
  split
  · rename_i i hi
    obtain ⟨hlt, heq, -⟩ := List.idxOf?_eq_some_iff.1 hi
    rw [if_pos (heq ▸ List.getElem_mem hlt)]
  · rename_i hi
    rw [if_neg (List.idxOf?_eq_none_iff.1 hi)]

end NameTable

namespace NameIndex

/-- The row of names and the map to their numbers say the same. -/
structure Agrees (t : NameIndex) : Prop where
  folded : ∀ name ∈ t.table.names, Text.fold name = name
  nodup : t.table.names.Nodup
  number?_eq : ∀ name, t.number? name = (t.table.names.idxOf? name).map UInt32.ofNat

theorem agrees_empty : empty.Agrees := ⟨by simp [empty, table], by simp [empty, table], fun _ => rfl⟩

theorem intern_eq (t : NameIndex) (name : Text) : t.intern name =
    match t.number? (Text.fold name) with
    | some i => (i, t)
    | none => t.insert (Text.fold name) := by
  rw [intern]
  split
  · rfl
  · rename_i h
    have hlower : Text.fold name = name := Text.fold_eq_self fun c hc => by
      simpa using List.any_eq_false.1 (Bool.eq_false_iff.2 h) c hc
    exact hlower.symm ▸ rfl

theorem table_insert (t : NameIndex) (name : Text) : (t.insert name).2.table.names = t.table.names ++ [name] :=
  Array.toList_push

theorem Agrees.insert {t : NameIndex} (h : t.Agrees) {name : Text} (hf : Text.fold name = name)
    (hnew : name ∉ t.table.names) : (t.insert name).2.Agrees where
  folded other ho := by
    rw [table_insert, List.mem_append, List.mem_singleton] at ho
    rcases ho with ho | rfl
    · exact h.folded other ho
    · exact hf
  nodup := by
    rw [table_insert, List.nodup_append]
    refine ⟨h.nodup, List.nodup_singleton _, fun a ha b hb => ?_⟩
    obtain rfl := List.mem_singleton.1 hb
    exact fun he => hnew (he ▸ ha)
  number?_eq other := by
    rw [table_insert, idxOf?_concat, number?, NameIndex.insert, List.lookup_cons]
    by_cases he : other = name
    · subst he
      rw [List.idxOf?_eq_none_iff.2 hnew, beq_self_eq_true]
      rfl
    · have hold : (t.table.names.idxOf? other).or none = t.table.names.idxOf? other := by simp
      rw [beq_eq_false_iff_ne.2 he, beq_eq_false_iff_ne.2 (Ne.symm he), if_neg Bool.false_ne_true, hold]
      exact h.number?_eq other

/-- **An index does what the table of its names does**, numbers cut to a word, and its row and map keep saying the
same. -/
theorem Agrees.intern {t : NameIndex} (h : t.Agrees) (name : Text) :
    (t.intern name).1 = UInt32.ofNat (t.table.insert name).1 ∧ (t.intern name).2.table = (t.table.insert name).2 ∧
      (t.intern name).2.Agrees := by
  rw [intern_eq, h.number?_eq, NameTable.insert]
  cases hi : t.table.names.idxOf? (Text.fold name) with
  | some i => exact ⟨rfl, rfl, h⟩
  | none =>
    exact ⟨rfl, congrArg NameTable.mk (t.table_insert _),
      h.insert (Text.fold_fold name) (List.idxOf?_eq_none_iff.1 hi)⟩

/-! ## Names asked for one after the other -/

theorem internAll_append (before after : List Text) : ∀ t : NameIndex, t.internAll (before ++ after) =
    ((t.internAll before).1 ++ ((t.internAll before).2.internAll after).1, ((t.internAll before).2.internAll after).2) := by
  induction before with
  | nil => exact fun t => rfl
  | cons name before ih =>
    intro t
    rw [List.cons_append, internAll, internAll, ih]
    rfl

theorem Agrees.internAll : ∀ (calls : List Text) {t : NameIndex}, t.Agrees → (t.internAll calls).2.Agrees
  | [], _, h => h
  | name :: calls, _, h => Agrees.internAll calls (h.intern name).2.2

theorem Agrees.prefix_intern {t : NameIndex} (h : t.Agrees) (name : Text) :
    t.table.names <+: (t.intern name).2.table.names := by
  rw [(h.intern name).2.1]
  exact t.table.prefix_insert name

theorem Agrees.prefix_internAll : ∀ (calls : List Text) {t : NameIndex}, t.Agrees →
    t.table.names <+: (t.internAll calls).2.table.names
  | [], _, _ => List.prefix_refl _
  | name :: calls, _, h => (h.prefix_intern name).trans (Agrees.prefix_internAll calls (h.intern name).2.2)

/-- **The row holds the names in lower case, each where it came first.** -/
theorem Agrees.names_internAll : ∀ (calls : List Text) {t : NameIndex}, t.Agrees →
    (t.internAll calls).2.table.names = (t.table.names ++ calls.map Text.fold).eraseDups
  | [], t, h => by
    rw [List.map_nil, List.append_nil, eraseDups_of_nodup h.nodup]
    rfl
  | name :: calls, t, h => by
    obtain ⟨-, htable, hagrees⟩ := h.intern name
    rw [NameIndex.internAll, Agrees.names_internAll calls hagrees, htable, NameTable.names_insert, List.map_cons]
    split
    · rename_i hmem
      rw [eraseDups_append_cons_of_mem hmem]
    · rw [List.append_assoc, List.singleton_append]

/-- Each number is the place of its name in the row, cut to a word. -/
theorem Agrees.forall₂_internAll : ∀ (calls : List Text) {t : NameIndex}, t.Agrees →
    List.Forall₂ (fun name i => ∃ k, (t.internAll calls).2.table.get? k = some (Text.fold name) ∧ i = UInt32.ofNat k)
      calls (t.internAll calls).1
  | [], _, _ => .nil
  | name :: calls, t, h => by
    obtain ⟨hid, htable, hagrees⟩ := h.intern name
    have hname : (t.intern name).2.table.get? (t.table.insert name).1 = some (Text.fold name) := by
      rw [htable]
      exact t.table.get?_insert name
    exact .cons ⟨_, NameTable.get?_of_prefix (hagrees.prefix_internAll calls) hname, hid⟩
      (Agrees.forall₂_internAll calls hagrees)

theorem get?_eq_table (t : NameIndex) (i : UInt32) : t.get? i = t.table.get? i.toNat := by
  rw [get?, NameTable.get?, table, Array.getElem?_toList]

theorem get?_ofNat {t : NameIndex} {k : Nat} (hk : k < 2 ^ 32) : t.get? (UInt32.ofNat k) = t.table.get? k := by
  rw [get?_eq_table, UInt32.toNat_ofNat_of_lt' hk]

theorem get?_eq_none_iff (t : NameIndex) (i : UInt32) : t.get? i = none ↔ t.size ≤ i.toNat := Array.getElem?_eq_none_iff

theorem size_eq (t : NameIndex) : t.size = t.table.names.length := rfl

theorem lt_size_of_get? {t : NameIndex} {k : Nat} {name : Text} (h : t.table.get? k = some name) : k < t.size :=
  (List.getElem?_eq_some_iff.1 h).1

/-- **Up to as many names as there are words the row and the map are inverse to each other.** -/
theorem Agrees.number?_eq_some_iff {t : NameIndex} (h : t.Agrees) (hs : t.size ≤ 2 ^ 32) (name : Text) (i : UInt32) :
    t.number? name = some i ↔ t.get? i = some name := by
  rw [h.number?_eq, Option.map_eq_some_iff]
  constructor
  · rintro ⟨k, hk, rfl⟩
    have hname : t.table.get? k = some name := (idxOf?_eq_some_iff_of_nodup h.nodup).1 hk
    rw [get?_ofNat (Nat.lt_of_lt_of_le (lt_size_of_get? hname) hs), hname]
  · intro hname
    rw [← UInt32.ofNat_toNat (x := i), get?_ofNat i.toNat_lt] at hname
    exact ⟨i.toNat, (idxOf?_eq_some_iff_of_nodup h.nodup).2 hname, UInt32.ofNat_toNat⟩

theorem get?_mono {t u : NameIndex} (h : t.table.names <+: u.table.names) {i : UInt32} {name : Text}
    (hi : t.get? i = some name) : u.get? i = some name := by
  rw [get?_eq_table] at hi ⊢
  exact NameTable.get?_of_prefix h hi

theorem size_mono {t u : NameIndex} (h : t.table.names <+: u.table.names) : t.size ≤ u.size := h.length_le

/-- **A number that is given is in the index**, and stands for the name unless there are more names than words. -/
theorem Agrees.exists_get?_intern {t : NameIndex} (h : t.Agrees) (name : Text) :
    ∃ found, (t.intern name).2.get? (t.intern name).1 = some found ∧
      ((t.intern name).2.size ≤ 2 ^ 32 → found = Text.fold name) := by
  obtain ⟨hid, htable, -⟩ := h.intern name
  have hname := t.table.get?_insert name
  rw [← htable] at hname
  have hlt := lt_size_of_get? hname
  have hid' : (t.intern name).1.toNat ≤ (t.table.insert name).1 := by
    rw [hid, UInt32.toNat_ofNat']
    exact Nat.mod_le ..
  have hin : (t.intern name).1.toNat < (t.intern name).2.names.size := Nat.lt_of_le_of_lt hid' hlt
  refine ⟨(t.intern name).2.names[(t.intern name).1.toNat], Array.getElem?_eq_getElem hin, fun hsize => ?_⟩
  have hget := get?_ofNat (t := (t.intern name).2) (Nat.lt_of_lt_of_le hlt hsize)
  rw [← hid, hname] at hget
  exact Option.some.inj ((Array.getElem?_eq_getElem hin).symm.trans hget)

theorem Agrees.eq_of_get? {t : NameIndex} (h : t.Agrees) (hs : t.size ≤ 2 ^ 32) {i j : UInt32} {name : Text}
    (hi : t.get? i = some name) (hj : t.get? j = some name) : i = j :=
  Option.some.inj (((h.number?_eq_some_iff hs name i).2 hi).symm.trans ((h.number?_eq_some_iff hs name j).2 hj))

/-- How names are numbered that are asked for one after the other: the numbers given, and the index in the end. -/
structure Numbered (calls : List Text) (ids : List UInt32) (t : NameIndex) : Prop where
  length_eq : ids.length = calls.length
  names_eq : t.table.names = (calls.map Text.fold).eraseDups
  lower : ∀ name ∈ t.table.names, ∀ c ∈ name, c.isUpper = false
  nodup : t.table.names.Nodup
  inverse : ∀ name i, t.number? name = some i ↔ t.get? i = some name
  toNat_eq : ∀ a ∈ calls.zip ids, a.2.toNat = t.table.names.idxOf (Text.fold a.1)
  get?_eq : ∀ a ∈ calls.zip ids, t.get? a.2 = some (Text.fold a.1)
  eq_iff : ∀ a ∈ calls.zip ids, ∀ b ∈ calls.zip ids, a.2 = b.2 ↔ Text.sameFolded a.1 b.1 = true
  get?_eq_none_iff : ∀ i, t.get? i = none ↔ t.size ≤ i.toNat

/-- **Numbers and names in lower case determine each other**, if there are no more of them than words, and a number that
has been given keeps its name. -/
theorem internAll_numbers {calls : List Text} (h : (calls.map Text.fold).eraseDups.length ≤ 2 ^ 32) :
    Numbered calls (empty.internAll calls).1 (empty.internAll calls).2 ∧
      ∀ before after, calls = before ++ after → (empty.internAll before).1 <+: (empty.internAll calls).1 ∧
        ∀ i name, (empty.internAll before).2.get? i = some name → (empty.internAll calls).2.get? i = some name := by
  have hagrees := agrees_empty.internAll calls
  have hnames : (empty.internAll calls).2.table.names = (calls.map Text.fold).eraseDups :=
    agrees_empty.names_internAll calls
  have hsize : (empty.internAll calls).2.size ≤ 2 ^ 32 := by rwa [size_eq, hnames]
  obtain ⟨hlength, hzip⟩ := List.forall₂_iff_zip.1 (agrees_empty.forall₂_internAll calls)
  have hkept : ∀ before after, calls = before ++ after → (empty.internAll before).1 <+: (empty.internAll calls).1 ∧
      ∀ i name, (empty.internAll before).2.get? i = some name → (empty.internAll calls).2.get? i = some name := by
    rintro before after rfl
    rw [internAll_append]
    refine ⟨List.prefix_append _ _, fun i name hi => ?_⟩
    rw [get?_eq_table] at hi ⊢
    exact NameTable.get?_of_prefix ((agrees_empty.internAll before).prefix_internAll after) hi
  refine ⟨?_, hkept⟩
  generalize empty.internAll calls = r at *
  have hget : ∀ a ∈ calls.zip r.1, r.2.get? a.2 = some (Text.fold a.1) := fun a ha => by
    obtain ⟨k, hk, hi⟩ := hzip ha
    rw [hi, get?_ofNat (Nat.lt_of_lt_of_le (lt_size_of_get? hk) hsize), hk]
  have hnumber : ∀ a ∈ calls.zip r.1, r.2.number? (Text.fold a.1) = some a.2 := fun a ha =>
    (hagrees.number?_eq_some_iff hsize _ _).2 (hget a ha)
  refine ⟨hlength.symm, hnames, fun name hname => Text.fold_eq_self_iff.1 (hagrees.folded name hname), hagrees.nodup,
    hagrees.number?_eq_some_iff hsize, fun a ha => ?_, hget, fun a ha b hb => ?_, r.2.get?_eq_none_iff⟩
  · obtain ⟨hlt, hname⟩ := Array.getElem?_eq_some_iff.1 (hget a ha)
    have hplace := hagrees.nodup.idxOf_getElem a.2.toNat hlt
    rw [← hplace]
    exact congrArg (r.2.table.names.idxOf ·) hname
  · rw [Text.sameFolded, beq_iff_eq]
    constructor
    · intro he
      exact Option.some.inj ((hget a ha).symm.trans (he ▸ hget b hb))
    · intro he
      exact Option.some.inj ((hnumber a ha).symm.trans (he ▸ hnumber b hb))

/-- Two spellings of one name around another name. -/
theorem internAll_numbers_spellings :
    let calls := ["DiV".toList, "p".toList, "div".toList]
    (calls.map Text.fold).eraseDups.length ≤ 2 ^ 32 ∧ (empty.internAll calls).1 = [0, 1, 0] ∧
      Numbered calls (empty.internAll calls).1 (empty.internAll calls).2 :=
  ⟨by decide, by decide, (internAll_numbers (by decide)).1⟩

end NameIndex
end SafeMarkup
