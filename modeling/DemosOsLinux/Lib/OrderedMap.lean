/-
  Maps with ordered keys, as `std::map`.

  The entries are a list with increasing keys, which is the order of iteration. `OrderedMap.at?` is
  `find`, `insert` assigns, and `get` is `operator[]`, which inserts a default value for a key that
  is not there.
  * `at?_insert`: what a map holds after an assignment.
  * `at?_foldl_insert`: and after assignments to distinct keys.
  * `mem_entries`: the entries are the values that `at?` finds.
-/
import Mathlib.Data.List.Induction
import Mathlib.Order.Lattice

namespace DemosOsLinux.Lib

structure OrderedMap (κ β : Type) [LinearOrder κ] where
  entries : List (κ × β)
  increasing : entries.Pairwise fun x y => x.1 < y.1

namespace OrderedMap

variable {κ β : Type} [LinearOrder κ] {es : List (κ × β)} {k : κ} {v : β} {m : OrderedMap κ β}

def empty : OrderedMap κ β := ⟨[], List.Pairwise.nil⟩

/-- The value of a key in a list of entries. -/
def lookup (k : κ) : List (κ × β) → Option β
  | [] => none
  | (k', v) :: rest => if k = k' then some v else lookup k rest

def at? (m : OrderedMap κ β) (k : κ) : Option β := lookup k m.entries

def insertEntry (k : κ) (v : β) : List (κ × β) → List (κ × β)
  | [] => [(k, v)]
  | (k', v') :: rest =>
    if k < k' then (k, v) :: (k', v') :: rest
    else if k = k' then (k, v) :: rest
    else (k', v') :: insertEntry k v rest

theorem mem_insertEntry {e : κ × β} (h : e ∈ insertEntry k v es) : e = (k, v) ∨ e ∈ es := by
  induction es with
  | nil => exact Or.inl (List.mem_singleton.mp h)
  | cons e' rest ih =>
    obtain ⟨k', v'⟩ := e'
    unfold insertEntry at h
    split at h
    · exact List.mem_cons.mp h
    · split at h
      · exact (List.mem_cons.mp h).imp_right (List.mem_cons_of_mem _)
      · rcases List.mem_cons.mp h with rfl | h
        · exact Or.inr List.mem_cons_self
        · exact (ih h).imp_right (List.mem_cons_of_mem _)

theorem insertEntry_increasing (k : κ) (v : β) (h : es.Pairwise fun x y => x.1 < y.1) :
    (insertEntry k v es).Pairwise fun x y => x.1 < y.1 := by
  induction es with
  | nil => exact List.pairwise_singleton _ _
  | cons e rest ih =>
    obtain ⟨k', v'⟩ := e
    obtain ⟨hhead, hrest⟩ := List.pairwise_cons.mp h
    unfold insertEntry
    split
    case isTrue hlt =>
      refine List.pairwise_cons.mpr ⟨fun e he => ?_, h⟩
      rcases List.mem_cons.mp he with rfl | he
      · exact hlt
      · exact lt_trans hlt (hhead e he)
    case isFalse hge =>
      split
      case isTrue heq =>
        subst heq
        exact List.pairwise_cons.mpr ⟨hhead, hrest⟩
      case isFalse hne =>
        refine List.pairwise_cons.mpr ⟨fun e he => ?_, ih hrest⟩
        rcases mem_insertEntry he with rfl | he
        · exact lt_of_le_of_ne (not_lt.mp hge) (Ne.symm hne)
        · exact hhead e he

/-- `m[k] = v`. -/
def insert (m : OrderedMap κ β) (k : κ) (v : β) : OrderedMap κ β :=
  ⟨insertEntry k v m.entries, insertEntry_increasing k v m.increasing⟩

/-- `m[k]`: the value, and the map, which now has the key. -/
def get [Inhabited β] (m : OrderedMap κ β) (k : κ) : β × OrderedMap κ β :=
  match m.at? k with
  | some v => (v, m)
  | none => (default, m.insert k default)

@[simp] theorem at?_empty (k : κ) : (empty : OrderedMap κ β).at? k = none := rfl

theorem lookup_insertEntry (k k' : κ) (v : β) :
    lookup k' (insertEntry k v es) = if k' = k then some v else lookup k' es := by
  induction es with
  | nil => rfl
  | cons e rest ih =>
    obtain ⟨k₁, v₁⟩ := e
    unfold insertEntry
    split
    · rfl
    · split
      case isTrue heq =>
        subst heq
        by_cases h : k' = k
        · rw [lookup, if_pos h, if_pos h]
        · rw [lookup, lookup, if_neg h, if_neg h, if_neg h]
      case isFalse hne =>
        rw [lookup, lookup, ih]
        by_cases h : k' = k
        · rw [if_pos h, if_pos h, if_neg (fun h' => hne (h.symm.trans h'))]
        · rw [if_neg h, if_neg h]

theorem at?_insert (m : OrderedMap κ β) (k k' : κ) (v : β) :
    (m.insert k v).at? k' = if k' = k then some v else m.at? k' :=
  lookup_insertEntry k k' v

/-- Assignments to distinct keys. -/
theorem at?_foldl_insert {γ : Type} (key : γ → κ) (val : γ → β) {l : List γ}
    (h : (l.map key).Nodup) (k : κ) (v : β) :
    (l.foldl (fun m x => m.insert (key x) (val x)) empty).at? k = some v ↔
      ∃ x ∈ l, key x = k ∧ val x = v := by
  induction l using List.reverseRecOn with
  | nil => simp
  | append_singleton l x ih =>
    rw [List.map_append, List.nodup_append] at h
    obtain ⟨hl, -, hnew⟩ := h
    rw [List.foldl_append, List.foldl_cons, List.foldl_nil, at?_insert]
    by_cases heq : k = key x
    · rw [if_pos heq]
      constructor
      · intro hv
        exact ⟨x, by simp, heq.symm, Option.some.inj hv⟩
      · rintro ⟨y, hy, hkey, rfl⟩
        rcases List.mem_append.mp hy with hold | hlast
        · exact absurd (hkey.trans heq) (hnew _ (List.mem_map_of_mem hold) _ (by simp))
        · rw [List.mem_singleton.mp hlast]
    · rw [if_neg heq, ih hl]
      constructor
      · rintro ⟨y, hy, hval⟩
        exact ⟨y, List.mem_append_left _ hy, hval⟩
      · rintro ⟨y, hy, hkey, hval⟩
        rcases List.mem_append.mp hy with hold | hlast
        · exact ⟨y, hold, hkey, hval⟩
        · rw [List.mem_singleton.mp hlast] at hkey
          exact absurd hkey.symm heq

theorem lookup_eq_some (h : es.Pairwise fun x y => x.1 < y.1) :
    lookup k es = some v ↔ (k, v) ∈ es := by
  induction es with
  | nil => exact ⟨fun h => absurd h.symm (Option.some_ne_none v), fun h => absurd h List.not_mem_nil⟩
  | cons e rest ih =>
    obtain ⟨k', v'⟩ := e
    obtain ⟨hhead, hrest⟩ := List.pairwise_cons.mp h
    rw [lookup, List.mem_cons]
    by_cases heq : k = k'
    · subst heq
      rw [if_pos rfl]
      constructor
      · intro hv
        exact Or.inl (by rw [Option.some.inj hv])
      · rintro (hv | hv)
        · rw [(Prod.mk.inj hv).2]
        · exact absurd (hhead (k, v) hv) (lt_irrefl k)
    · rw [if_neg heq, ih hrest]
      refine ⟨Or.inr, fun hv => hv.resolve_left fun hv => heq (Prod.mk.inj hv).1⟩

theorem mem_entries : (k, v) ∈ m.entries ↔ m.at? k = some v := (lookup_eq_some m.increasing).symm

theorem keys_nodup (m : OrderedMap κ β) : (m.entries.map Prod.fst).Nodup := by
  rw [List.Nodup, List.pairwise_map]
  exact m.increasing.imp ne_of_lt

/-- A lookup with `operator[]` of a key that is there. -/
theorem get_of_some [Inhabited β] (h : m.at? k = some v) : m.get k = (v, m) := by
  rw [get, h]

theorem get_fst [Inhabited β] (m : OrderedMap κ β) (k : κ) :
    (m.get k).1 = (m.at? k).getD default := by
  unfold get
  split <;> simp_all

/-- `operator[]` does not change what a lookup gives, with the default for missing keys. -/
theorem getD_get [Inhabited β] (m : OrderedMap κ β) (k k' : κ) :
    ((m.get k).2.at? k').getD default = (m.at? k').getD default := by
  unfold get
  split
  · rfl
  case h_2 hnone =>
    dsimp only
    rw [at?_insert]
    by_cases heq : k' = k
    · rw [if_pos heq, heq, hnone]
      rfl
    · rw [if_neg heq]

end OrderedMap

end DemosOsLinux.Lib
