/-
  The buffers of the mmap modules.

  * `Owned`: each buffer has one mapping, or was freed once.
  * `Grows`, `Broken`: no call takes back a free or makes a lost buffer reachable, so what is broken
    stays so.
  * `buffers_freed_once_iff`: the buffers are freed exactly once if and only if all calls are
    careful.
-/
import DemosOsLinux.MmapModules.Mappings

namespace DemosOsLinux.MmapModules

open Lib

/-! ## Owners -/

/-- The number of mappings of buffer `b`. -/
def mapped (vmas : List Vma) (b : Nat) : Nat := vmas.countP fun v => v.buffer = some b

/-- How often the buffer was freed, and how often it still can be. -/
def State.total (s : State) (b : Nat) : Nat := s.freed b + mapped s.vmas b

/-- Each buffer has one mapping or was freed once. -/
def Owned (s : State) : Prop := ∀ b, s.total b = if b < s.obtained then 1 else 0

/-- A buffer has neither a mapping nor was it freed, or it was freed and has a mapping, or it was
    freed twice. -/
def Broken (s : State) : Prop :=
  ∃ b, b < s.obtained ∧ (s.total b = 0 ∨ (1 ≤ s.freed b ∧ 2 ≤ s.total b))

/-- What every call does: nothing is taken back. -/
structure Grows (s s' : State) : Prop where
  obtained : s.obtained ≤ s'.obtained
  freed : ∀ b, s.freed b ≤ s'.freed b
  total : ∀ b, s.total b ≤ s'.total b
  gone : ∀ b, b < s.obtained → s.total b = 0 → s'.total b = 0

variable {v : Vma} {mm : Nat} {s₁ : State}

section Owners

variable {m : Module} {s s' : State} {b : Nat}

/-- A call that does nothing to the buffers. -/
theorem Grows.of_eq (hn : s'.obtained = s.obtained) (hf : s'.freed = s.freed)
    (ht : ∀ b, s'.total b = s.total b) : Grows s s' :=
  ⟨Nat.le_of_eq hn.symm, fun b => Nat.le_of_eq (by rw [hf]), fun b => Nat.le_of_eq (ht b).symm,
    fun b _ h0 => (ht b).trans h0⟩

theorem Owned.of_eq (ho : Owned s) (hn : s'.obtained = s.obtained)
    (ht : ∀ b, s'.total b = s.total b) : Owned s' := by
  intro b
  rw [ht, hn]
  exact ho b

theorem Grows.refl (s : State) : Grows s s := .of_eq rfl rfl fun _ => rfl

theorem Grows.trans {s₂ s₃ : State} (h : Grows s₁ s₂) (h' : Grows s₂ s₃) : Grows s₁ s₃ :=
  ⟨Nat.le_trans h.obtained h'.obtained, fun b => Nat.le_trans (h.freed b) (h'.freed b),
    fun b => Nat.le_trans (h.total b) (h'.total b),
    fun b hb h0 => h'.gone b (Nat.lt_of_lt_of_le hb h.obtained) (h.gone b hb h0)⟩

theorem Broken.grows (hb : Broken s) (h : Grows s s') : Broken s' := by
  obtain ⟨b, hlt, h0 | ⟨hfreed, htotal⟩⟩ := hb
  · exact ⟨b, Nat.lt_of_lt_of_le hlt h.obtained, Or.inl (h.gone b hlt h0)⟩
  · exact ⟨b, Nat.lt_of_lt_of_le hlt h.obtained,
      Or.inr ⟨Nat.le_trans hfreed (h.freed b), Nat.le_trans htotal (h.total b)⟩⟩

theorem close_apply (freed : Nat → Nat) (vs : List Vma) (b : Nat) :
    close freed vs b = freed b + mapped vs b := by
  induction vs generalizing freed with
  | nil => rfl
  | cons v vs ih =>
    change close (free freed v.buffer) vs b = _
    rw [ih, free, mapped, mapped, List.countP_cons]
    by_cases e : v.buffer = some b
    · simp [e]
      omega
    · simp [e]

theorem mapped_append (vs ws : List Vma) (b : Nat) :
    mapped (vs ++ ws) b = mapped vs b + mapped ws b :=
  List.countP_append

theorem mapped_filter (p : Vma → Bool) (vs : List Vma) (b : Nat) :
    mapped (vs.filter p) b + mapped (vs.filter fun v => !p v) b = mapped vs b := by
  induction vs with
  | nil => rfl
  | cons v vs ih =>
    rw [mapped, mapped, mapped] at ih ⊢
    cases hp : p v with
    | true =>
      rw [List.filter_cons_of_pos hp, List.filter_cons_of_neg (by simp [hp]), List.countP_cons,
        List.countP_cons]
      omega
    | false =>
      rw [List.filter_cons_of_neg (by simp [hp]), List.filter_cons_of_pos (by simp [hp]),
        List.countP_cons, List.countP_cons]
      omega

/-- What vm_munmap(9) leaves of the mappings that it takes parts from. -/
def leftOver (vs : List Vma) (mm start stop : Nat) : List Vma :=
  (vs.filter (overlaps mm start stop)).flatMap (cut start stop)

theorem mapped_munmap (vs : List Vma) (mm start stop b : Nat) :
    mapped (vs.flatMap fun v => if overlaps mm start stop v then cut start stop v else [v]) b +
        mapped (vs.filter (overlaps mm start stop)) b =
      mapped vs b + mapped (leftOver vs mm start stop) b := by
  induction vs with
  | nil => rfl
  | cons v vs ih =>
    rw [leftOver] at ih ⊢
    cases hv : overlaps mm start stop v with
    | true =>
      rw [List.flatMap_cons, List.filter_cons_of_pos hv, List.flatMap_cons, if_pos hv,
        mapped_append, mapped_append]
      simp only [mapped, List.countP_cons] at ih ⊢
      omega
    | false =>
      rw [List.flatMap_cons, List.filter_cons_of_neg (by simp [hv]), if_neg (by simp [hv]),
        mapped_append]
      simp only [mapped, List.countP_cons, List.countP_nil] at ih ⊢
      omega

/-- What is left has the buffer of a mapping that was closed. -/
theorem closed_of_leftOver {vs : List Vma} {start stop : Nat}
    (h : 0 < mapped (leftOver vs mm start stop) b) :
    0 < mapped (vs.filter (overlaps mm start stop)) b := by
  obtain ⟨w, hw, hb⟩ := List.countP_pos_iff.mp h
  obtain ⟨v, hv, hwv⟩ := List.mem_flatMap.mp hw
  refine List.countP_pos_iff.mpr ⟨v, hv, ?_⟩
  have hbuf : w.buffer = v.buffer := by
    simp only [cut, List.mem_append] at hwv
    rcases hwv with hwv | hwv
    · split at hwv
      · rw [List.mem_singleton.mp hwv]
      · cases hwv
    · split at hwv
      · rw [List.mem_singleton.mp hwv]
      · cases hwv
  rwa [← hbuf]

theorem mapped_of_mem (hv : v ∈ s.vmas) (hb : v.buffer = some b) : 0 < mapped s.vmas b :=
  List.countP_pos_iff.mpr ⟨v, hv, by simp [hb]⟩

theorem free_apply (freed : Nat → Nat) (buffer : Option Nat) (b : Nat) :
    free freed buffer b = freed b + if buffer = some b then 1 else 0 := by
  rw [free]
  split <;> rfl

end Owners

/-! ## vm_munmap(9) and the end of a process -/

/-- The call takes a part, but not the whole, of a mapping with a buffer. -/
def tears (s : State) (mm addr len : Nat) (ok : Bool) : Bool :=
  munmapOk addr len ok &&
    (leftOver s.vmas mm addr (addr + pageAlign len)).any fun v => v.buffer.isSome

section Munmap

variable {s : State} {mm addr len : Nat} {ok : Bool}

theorem counts_vmMunmap (h : munmapOk addr len ok = true) (b : Nat) :
    (vmMunmap s mm addr len ok).total b =
        s.total b + mapped (leftOver s.vmas mm addr (addr + pageAlign len)) b ∧
      (vmMunmap s mm addr len ok).freed b =
        s.freed b + mapped (s.vmas.filter (overlaps mm addr (addr + pageAlign len))) b := by
  have hmapped := mapped_munmap s.vmas mm addr (addr + pageAlign len) b
  rw [vmMunmap, if_pos h]
  refine ⟨?_, close_apply _ _ b⟩
  simp only [State.total, close_apply]
  omega

theorem vmMunmap_of_not_ok (h : munmapOk addr len ok = false) : vmMunmap s mm addr len ok = s := by
  simp [vmMunmap, h]

theorem obtained_vmMunmap : (vmMunmap s mm addr len ok).obtained = s.obtained := by
  rw [vmMunmap]
  split <;> rfl

theorem grows_vmMunmap : Grows s (vmMunmap s mm addr len ok) := by
  cases h : munmapOk addr len ok with
  | false =>
    rw [vmMunmap_of_not_ok h]
    exact .refl s
  | true =>
    refine ⟨Nat.le_of_eq obtained_vmMunmap.symm, fun b => ?_, fun b => ?_, fun b _ h0 => ?_⟩
    · rw [(counts_vmMunmap h b).2]
      exact Nat.le_add_right _ _
    · rw [(counts_vmMunmap h b).1]
      exact Nat.le_add_right _ _
    · rw [(counts_vmMunmap h b).1, h0, Nat.zero_add]
      -- what is left would be of a mapping of `b`
      by_contra hpos
      have hclosed := closed_of_leftOver (Nat.pos_of_ne_zero hpos)
      have hle := mapped_filter (overlaps mm addr (addr + pageAlign len)) s.vmas b
      rw [State.total] at h0
      omega

theorem owned_vmMunmap (ho : Owned s) (h : tears s mm addr len ok = false) :
    Owned (vmMunmap s mm addr len ok) := by
  cases hok : munmapOk addr len ok with
  | false =>
    rw [vmMunmap_of_not_ok hok]
    exact ho
  | true =>
    intro b
    rw [(counts_vmMunmap hok b).1, obtained_vmMunmap, ← ho b]
    simp only [tears, hok, Bool.true_and, List.any_eq_false] at h
    have hzero : mapped (leftOver s.vmas mm addr (addr + pageAlign len)) b = 0 := by
      rw [mapped, List.countP_eq_zero]
      intro v hv hb
      exact h v hv (by simp [of_decide_eq_true hb])
    rw [hzero, Nat.add_zero]

theorem broken_vmMunmap (ho : Owned s) (h : tears s mm addr len ok = true) :
    Broken (vmMunmap s mm addr len ok) := by
  simp only [tears, Bool.and_eq_true, List.any_eq_true] at h
  obtain ⟨hok, v, hv, hsome⟩ := h
  obtain ⟨b, hb⟩ := Option.isSome_iff_exists.mp hsome
  have hleft : 0 < mapped (leftOver s.vmas mm addr (addr + pageAlign len)) b :=
    List.countP_pos_iff.mpr ⟨v, hv, by simp [hb]⟩
  have hclosed := closed_of_leftOver hleft
  have hsum := mapped_filter (overlaps mm addr (addr + pageAlign len)) s.vmas b
  have htotal := ho b
  have hpos : 0 < s.total b := by
    rw [State.total]
    omega
  have hlt : b < s.obtained := by
    by_contra hge
    rw [if_neg hge] at htotal
    omega
  refine ⟨b, by rw [obtained_vmMunmap]; exact hlt, Or.inr ⟨?_, ?_⟩⟩
  · rw [(counts_vmMunmap hok b).2]
    omega
  · rw [(counts_vmMunmap hok b).1]
    omega

theorem total_exitMm (b : Nat) : (exitMm s mm).total b = s.total b := by
  have hsum := mapped_filter (fun v => v.mm = mm) s.vmas b
  simp only [exitMm, State.total, close_apply, ne_eq, decide_not]
  omega

theorem grows_exitMm : Grows s (exitMm s mm) := by
  refine ⟨Nat.le_refl _, fun b => ?_, fun b => Nat.le_of_eq (total_exitMm b).symm, fun b _ h => ?_⟩
  · simp only [exitMm, close_apply]
    exact Nat.le_add_right _ _
  · rw [total_exitMm, h]

theorem owned_exitMm (ho : Owned s) : Owned (exitMm s mm) := ho.of_eq rfl total_exitMm

end Munmap

/-! ## The operations of the modules -/

/-- `kern_mmap` of mod_mmap_simple.c does not free its buffer when remap_pfn_range(9) fails. -/
def leaks (m : Module) (c : MmapCall) : Bool :=
  m = .modMmapSimple && c.area.isSome && c.alloc && !c.remap

variable {c : MmapCall} {len : Nat}

section Operations

variable {m : Module} {s s' : State}

theorem total_obtained (ho : Owned s) : s.total s.obtained = 0 := by
  rw [ho, if_neg (Nat.lt_irrefl _)]

theorem grows_obtainBuffer (s : State) (alloc : Bool) : Grows s (obtainBuffer s alloc).1 := by
  cases alloc with
  | false => exact .refl s
  | true =>
    exact ⟨Nat.le_succ _, fun _ => Nat.le_refl _, fun _ => Nat.le_refl _, fun _ _ h => h⟩

/-- A buffer that is neither mapped nor freed. -/
theorem broken_obtainBuffer (ho : Owned s) : Broken (obtainBuffer s true).1 :=
  ⟨s.obtained, Nat.lt_succ_self _, Or.inl (total_obtained ho)⟩

theorem total_mapBuffer (vmas : List Vma) (v : Vma) (b : Nat) :
    mapped (vmas ++ [v]) b = mapped vmas b + if v.buffer = some b then 1 else 0 := by
  rw [mapped_append]
  congr 1
  simp [mapped, List.countP_singleton]

/-- The buffer of `kern_mmap` is mapped, or freed by the error path of mod_mmap.c. -/
theorem counts_kernMmap (s : State) (alloc remap : Bool) (mm start stop b : Nat) :
    (kernMmap m s alloc remap mm start stop).1.obtained =
        s.obtained + (if alloc then 1 else 0) ∧
      s.freed b ≤ (kernMmap m s alloc remap mm start stop).1.freed b ∧
      (kernMmap m s alloc remap mm start stop).1.total b =
        s.total b + if alloc ∧ (remap ∨ m = .modMmap) ∧ s.obtained = b then 1 else 0 := by
  cases alloc <;> cases remap <;> cases m <;>
    simp [kernMmap, obtainBuffer, State.total, total_mapBuffer, free_apply] <;> omega

theorem grows_kernMmap (s : State) (alloc remap : Bool) (mm start stop : Nat) :
    Grows s (kernMmap m s alloc remap mm start stop).1 := by
  refine ⟨?_, fun b => ?_, fun b => ?_, fun b hb h0 => ?_⟩
  · rw [(counts_kernMmap s alloc remap mm start stop 0).1]
    exact Nat.le_add_right _ _
  · exact (counts_kernMmap s alloc remap mm start stop b).2.1
  · rw [(counts_kernMmap s alloc remap mm start stop b).2.2]
    exact Nat.le_add_right _ _
  · rw [(counts_kernMmap s alloc remap mm start stop b).2.2, h0, if_neg (by omega)]

theorem owned_kernMmap (ho : Owned s) {alloc remap : Bool}
    (h : alloc = true → remap = true ∨ m = .modMmap) (mm start stop : Nat) :
    Owned (kernMmap m s alloc remap mm start stop).1 := by
  intro b
  have htotal := ho b
  rw [(counts_kernMmap s alloc remap mm start stop b).1,
    (counts_kernMmap s alloc remap mm start stop b).2.2, htotal]
  cases alloc with
  | false => simp
  | true =>
    simp only [h rfl, if_true, true_and]
    split <;> split <;> split <;> omega

theorem broken_kernMmap (ho : Owned s) (mm start stop : Nat) :
    Broken (kernMmap .modMmapSimple s true false mm start stop).1 :=
  ⟨s.obtained, Nat.lt_succ_self _, Or.inl (total_obtained ho)⟩

theorem vmMmap_cases {ret : Nat} (h : vmMmap m s c len = some (s', ret)) :
    (c.area = none ∧ s' = s) ∨
      ∃ start stop, c.area = some start ∧
        s' = (kernMmap m s c.alloc c.remap c.mm start stop).1 := by
  rw [vmMmap] at h
  split at h
  case h_1 harea =>
    cases h
    exact Or.inl ⟨harea, rfl⟩
  case h_2 start harea =>
    simp only at h
    split at h
    · cases h
      exact Or.inr ⟨start, _, harea, rfl⟩
    · cases h

theorem grows_vmMmap {ret : Nat} (h : vmMmap m s c len = some (s', ret)) : Grows s s' := by
  rcases vmMmap_cases h with ⟨_, rfl⟩ | ⟨start, stop, _, rfl⟩
  · exact .refl s'
  · exact grows_kernMmap s c.alloc c.remap c.mm start stop

theorem owned_vmMmap (ho : Owned s) {ret : Nat} (hl : leaks m c = false)
    (h : vmMmap m s c len = some (s', ret)) : Owned s' := by
  rcases vmMmap_cases h with ⟨_, rfl⟩ | ⟨start, stop, harea, rfl⟩
  · exact ho
  · refine owned_kernMmap ho (fun halloc => ?_) c.mm start stop
    cases m with
    | modMmap => exact Or.inr rfl
    | modMmapSimple =>
      left
      simpa [leaks, harea, halloc] using hl

theorem broken_vmMmap (ho : Owned s) {ret : Nat} (hl : leaks m c = true)
    (h : vmMmap m s c len = some (s', ret)) : Broken s' := by
  simp only [leaks, Bool.and_eq_true, decide_eq_true_eq, Bool.not_eq_true'] at hl
  obtain ⟨⟨⟨rfl, harea⟩, halloc⟩, hremap⟩ := hl
  rcases vmMmap_cases h with ⟨hnone, _⟩ | ⟨start, stop, _, rfl⟩
  · rw [hnone] at harea
    cases harea
  · rw [halloc, hremap]
    exact broken_kernMmap ho c.mm start stop

theorem mem_of_nearer {vs : List Vma} {addr : Nat} {best : Option Vma}
    (h : vs.foldl (nearer mm addr) best = some v) : v ∈ vs ∨ best = some v := by
  induction vs generalizing best with
  | nil => exact Or.inr h
  | cons w vs ih =>
    rcases ih h with hv | hbest
    · exact Or.inl (List.mem_cons_of_mem w hv)
    · rw [nearer] at hbest
      split at hbest
      · cases hbest
        exact Or.inl List.mem_cons_self
      · exact Or.inr hbest

theorem mem_of_findVma {vmas : List Vma} {addr : Nat} (h : findVma vmas mm addr = some v) :
    v ∈ vmas := by
  rcases mem_of_nearer h with hv | hnone
  · exact hv
  · cases hnone

/-- One more free of a buffer that has a mapping. -/
theorem grows_free (hg : Grows s s₁) (hv : v ∈ s.vmas) :
    Grows s { s₁ with freed := free s₁.freed v.buffer } := by
  refine ⟨hg.obtained, fun b => ?_, fun b => ?_, fun b hb h0 => ?_⟩
  · have := hg.freed b
    simp only [free_apply]
    omega
  · have := hg.total b
    simp only [State.total, free_apply] at this ⊢
    omega
  · have hgone := hg.gone b hb h0
    have hne : v.buffer ≠ some b := by
      intro hbuf
      have := mapped_of_mem hv hbuf
      rw [State.total] at h0
      omega
    simp only [State.total, free_apply, if_neg hne] at hgone ⊢
    exact hgone

theorem broken_free (ho : Owned s) (hg : Grows s s₁) (hv : v ∈ s.vmas)
    (hsome : v.buffer.isSome = true) : Broken { s₁ with freed := free s₁.freed v.buffer } := by
  obtain ⟨b, hb⟩ := Option.isSome_iff_exists.mp hsome
  have hpos := mapped_of_mem hv hb
  have htotal := ho b
  have hgrow := hg.total b
  have hlt : b < s.obtained := by
    by_contra hge
    rw [if_neg hge, State.total] at htotal
    omega
  refine ⟨b, Nat.lt_of_lt_of_le hlt hg.obtained, Or.inr ⟨?_, ?_⟩⟩
  · simp only [free_apply, if_pos hb]
    omega
  · simp only [State.total, free_apply, if_pos hb] at hgrow htotal ⊢
    omega

end Operations

/-! ## All calls -/

/-- A call that leaves each buffer with one owner: an ioctl `MMAP` of mod_mmap.c gets no buffer of
    its own; remap_pfn_range(9) does not fail in mod_mmap_simple.c after an allocation; no
    mapping of a buffer is torn; and the ioctl `UNMAP` finds no mapping of a buffer, or (in
    mod_mmap_simple.c) vm_munmap(9) fails. -/
def careful (m : Module) (s : State) : Act → Bool
  | .ioctlMmap kaddr c => (m = .modMmapSimple || !kaddr) && !leaks m c
  | .ioctlUnmap mm ok =>
      match findVma s.vmas mm s.addr with
      | none => true
      | some v =>
          if v.buffer.isSome then
            m = .modMmapSimple && !munmapOk s.addr (u64OfInt s.ioctlSize) ok
          else !tears s mm s.addr (u64OfInt s.ioctlSize) ok
  | .mmap c _ => !leaks m c
  | .munmap mm addr len ok => !tears s mm addr len ok
  | _ => true

section Steps

variable {m : Module} {s s' : State} {kaddr : Bool} {es : List Unit}

theorem mapped_other (vmas : List Vma) (mm start stop b : Nat) :
    mapped (vmas ++ [⟨mm, start, stop, none⟩]) b = mapped vmas b := by
  rw [total_mapBuffer, if_neg (by simp), Nat.add_zero]

theorem ioctlMmap_cases (h : ioctlMmap m s kaddr c = some s') :
    ∃ s₁ s₂ ret, (s₁ = (obtainBuffer s kaddr).1 ∧ m = .modMmap ∨ s₁ = s ∧ m = .modMmapSimple) ∧
      vmMmap m s₁ c (u64OfInt s.ioctlSize) = some (s₂, ret) ∧ s' = { s₂ with addr := ret } := by
  obtain ⟨⟨s₂, ret⟩, hu, rfl⟩ := Option.map_eq_some_iff.mp h
  cases m with
  | modMmap => exact ⟨_, s₂, ret, Or.inl ⟨rfl, rfl⟩, hu, rfl⟩
  | modMmapSimple => exact ⟨_, s₂, ret, Or.inr ⟨rfl, rfl⟩, hu, rfl⟩

theorem grows_ioctlMmap (h : ioctlMmap m s kaddr c = some s') : Grows s s' := by
  obtain ⟨s₁, s₂, ret, hs₁, hmap, rfl⟩ := ioctlMmap_cases h
  have hfirst : Grows s s₁ := by
    rcases hs₁ with ⟨rfl, _⟩ | ⟨rfl, _⟩
    · exact grows_obtainBuffer s kaddr
    · exact .refl s₁
  have hg := hfirst.trans (grows_vmMmap hmap)
  exact ⟨hg.obtained, hg.freed, hg.total, hg.gone⟩

theorem owned_ioctlMmap (ho : Owned s) (hc : m = .modMmapSimple ∨ kaddr = false)
    (hl : leaks m c = false) (h : ioctlMmap m s kaddr c = some s') : Owned s' := by
  obtain ⟨s₁, s₂, ret, hs₁, hmap, rfl⟩ := ioctlMmap_cases h
  have hsame : s₁ = s := by
    rcases hs₁ with ⟨rfl, rfl⟩ | ⟨rfl, _⟩
    · rcases hc with hc | rfl
      · cases hc
      · rfl
    · rfl
  rw [hsame] at hmap
  have ho₂ : Owned s₂ := owned_vmMmap ho hl hmap
  exact ho₂

theorem broken_ioctlMmap (ho : Owned s) (hc : (m = .modMmap ∧ kaddr = true) ∨ leaks m c = true)
    (h : ioctlMmap m s kaddr c = some s') : Broken s' := by
  obtain ⟨s₁, s₂, ret, hs₁, hmap, rfl⟩ := ioctlMmap_cases h
  have hbroken : Broken s₂ := by
    rcases hs₁ with ⟨rfl, rfl⟩ | ⟨rfl, rfl⟩
    · rcases hc with ⟨_, rfl⟩ | hl
      · exact (broken_obtainBuffer ho).grows (grows_vmMmap hmap)
      · simp [leaks] at hl
    · rcases hc with ⟨hm, _⟩ | hl
      · cases hm
      · exact broken_vmMmap ho hl hmap
  exact hbroken

theorem ioctlUnmap_cases (m : Module) (s : State) (mm : Nat) (ok : Bool) :
    (findVma s.vmas mm s.addr = none ∧ ioctlUnmap m s mm ok = exitMm s mm) ∨
      ∃ v s₁, findVma s.vmas mm s.addr = some v ∧
        s₁ = vmMunmap s mm s.addr (u64OfInt s.ioctlSize) ok ∧
        ioctlUnmap m s mm ok =
          if m = .modMmap ∨ munmapOk s.addr (u64OfInt s.ioctlSize) ok = true then
            { s₁ with freed := free s₁.freed v.buffer }
          else s₁ := by
  cases hv : findVma s.vmas mm s.addr with
  | none => exact Or.inl ⟨rfl, by simp only [ioctlUnmap, hv]⟩
  | some v =>
    refine Or.inr ⟨v, _, rfl, rfl, ?_⟩
    cases m with
    | modMmap => simp only [ioctlUnmap, hv, true_or, if_true]
    | modMmapSimple => simp only [ioctlUnmap, hv, reduceCtorEq, false_or]

theorem grows_ioctlUnmap (mm : Nat) (ok : Bool) : Grows s (ioctlUnmap m s mm ok) := by
  rcases ioctlUnmap_cases m s mm ok with ⟨_, hs'⟩ | ⟨v, s₁, hv, hs₁, hs'⟩
  · rw [hs']
    exact grows_exitMm
  · have hg : Grows s s₁ := by
      rw [hs₁]
      exact grows_vmMunmap
    rw [hs']
    split
    · exact grows_free hg (mem_of_findVma hv)
    · exact hg

theorem owned_ioctlUnmap (ho : Owned s) {ok : Bool} (hc : careful m s (.ioctlUnmap mm ok) = true) :
    Owned (ioctlUnmap m s mm ok) := by
  rcases ioctlUnmap_cases m s mm ok with ⟨_, hs'⟩ | ⟨v, s₁, hv, hs₁, hs'⟩
  · rw [hs']
    exact owned_exitMm ho
  · simp only [careful, hv] at hc
    cases hb : v.buffer with
    | some b =>
      obtain ⟨rfl, hok⟩ : m = .modMmapSimple ∧
          munmapOk s.addr (u64OfInt s.ioctlSize) ok = false := by
        simpa [hb] using hc
      rw [hs', if_neg (by simp [hok]), hs₁, vmMunmap_of_not_ok hok]
      exact ho
    | none =>
      have ho₁ : Owned s₁ := by
        rw [hs₁]
        exact owned_vmMunmap ho (by simpa [hb] using hc)
      rw [hs']
      split
      · rw [hb]
        exact ho₁
      · exact ho₁

theorem broken_ioctlUnmap (ho : Owned s) {ok : Bool}
    (hc : ¬careful m s (.ioctlUnmap mm ok) = true) : Broken (ioctlUnmap m s mm ok) := by
  rcases ioctlUnmap_cases m s mm ok with ⟨hnone, _⟩ | ⟨v, s₁, hv, hs₁, hs'⟩
  · exact absurd (by simp only [careful, hnone]) hc
  · have hg : Grows s s₁ := by
      rw [hs₁]
      exact grows_vmMunmap
    simp only [careful, hv] at hc
    cases hb : v.buffer with
    | some b =>
      -- the mapping that is found has a buffer, which is freed besides
      have hfree : m = .modMmap ∨ munmapOk s.addr (u64OfInt s.ioctlSize) ok = true := by
        cases m with
        | modMmap => exact Or.inl rfl
        | modMmapSimple => exact Or.inr (by simpa [hb] using hc)
      rw [hs', if_pos hfree]
      exact broken_free ho hg (mem_of_findVma hv) (by rw [hb]; rfl)
    | none =>
      have hbroken : Broken s₁ := by
        rw [hs₁]
        exact broken_vmMunmap ho (by simpa [hb] using hc)
      rw [hs']
      split
      · rw [hb]
        exact hbroken
      · exact hbroken

theorem step_mmap (h : (driver m).step s (.mmap c len) = some (s', es)) :
    ∃ ret, vmMmap m s c len = some (s', ret) := by
  obtain ⟨⟨s₂, ret⟩, hu, he⟩ := Option.map_eq_some_iff.mp h
  cases he
  exact ⟨ret, hu⟩

theorem step_ioctlMmap (h : (driver m).step s (.ioctlMmap kaddr c) = some (s', es)) :
    ioctlMmap m s kaddr c = some s' := by
  obtain ⟨s₂, hu, he⟩ := Option.map_eq_some_iff.mp h
  cases he
  exact hu

/-- A mapping of something else, which has no buffer. -/
theorem step_other {start stop : Nat} (h : (driver m).step s (.other mm start stop) = some (s', es)) :
    s'.obtained = s.obtained ∧ s'.freed = s.freed ∧ ∀ b, s'.total b = s.total b := by
  simp only [driver, step] at h
  split at h
  · cases h
    refine ⟨rfl, rfl, fun b => ?_⟩
    rw [State.total, mapped_other]
    rfl
  · cases h

theorem grows_of_step {a : Act} (h : (driver m).step s a = some (s', es)) : Grows s s' := by
  cases a with
  | setSize arg =>
    cases h
    exact .of_eq rfl rfl fun b => by simp only [State.total]
  | ioctlMmap kaddr c => exact grows_ioctlMmap (step_ioctlMmap h)
  | ioctlUnmap mm ok =>
    cases h
    exact grows_ioctlUnmap mm ok
  | mmap c len =>
    obtain ⟨ret, hu⟩ := step_mmap h
    exact grows_vmMmap hu
  | munmap mm addr len ok =>
    cases h
    exact grows_vmMunmap
  | other mm start stop =>
    obtain ⟨hobtained, hfreed, htotal⟩ := step_other h
    exact .of_eq hobtained hfreed htotal
  | exit mm =>
    cases h
    exact grows_exitMm

theorem owned_of_step (ho : Owned s) {a : Act} (hc : careful m s a = true)
    (h : (driver m).step s a = some (s', es)) : Owned s' := by
  cases a with
  | setSize arg =>
    cases h
    exact ho.of_eq rfl fun b => by simp only [State.total]
  | ioctlMmap kaddr c =>
    simp only [careful, Bool.and_eq_true, Bool.or_eq_true, decide_eq_true_eq,
      Bool.not_eq_true'] at hc
    exact owned_ioctlMmap ho hc.1 hc.2 (step_ioctlMmap h)
  | ioctlUnmap mm ok =>
    cases h
    exact owned_ioctlUnmap ho hc
  | mmap c len =>
    obtain ⟨ret, hu⟩ := step_mmap h
    exact owned_vmMmap ho (by simpa [careful] using hc) hu
  | munmap mm addr len ok =>
    cases h
    exact owned_vmMunmap ho (by simpa [careful] using hc)
  | other mm start stop =>
    obtain ⟨hobtained, _, htotal⟩ := step_other h
    exact ho.of_eq hobtained htotal
  | exit mm =>
    cases h
    exact owned_exitMm ho

theorem broken_of_careless (ho : Owned s) {a : Act} (hc : ¬careful m s a = true)
    (h : (driver m).step s a = some (s', es)) : Broken s' := by
  cases a with
  | setSize arg => exact absurd rfl hc
  | ioctlMmap kaddr c =>
    refine broken_ioctlMmap ho ?_ (step_ioctlMmap h)
    simp only [careful, Bool.and_eq_true, Bool.or_eq_true, decide_eq_true_eq,
      Bool.not_eq_true', not_and_or, not_or, Bool.not_eq_false] at hc
    rcases hc with ⟨hm, hk⟩ | hl
    · left
      cases m with
      | modMmap => exact ⟨rfl, hk⟩
      | modMmapSimple => exact absurd rfl hm
    · exact Or.inr hl
  | ioctlUnmap mm ok =>
    cases h
    exact broken_ioctlUnmap ho hc
  | mmap c len =>
    obtain ⟨ret, hu⟩ := step_mmap h
    exact broken_vmMmap ho (by simpa [careful] using hc) hu
  | munmap mm addr len ok =>
    cases h
    exact broken_vmMunmap ho (by simpa [careful] using hc)
  | other mm start stop => exact absurd rfl hc
  | exit mm => exact absurd rfl hc

end Steps

/-! ## All runs -/

/-- Each buffer is mapped and not yet freed, or no longer mapped and freed once. -/
def FreedOnce (s : State) : Prop :=
  ∀ b, b < s.obtained →
    (s.freed b = 0 ∧ 0 < mapped s.vmas b) ∨ (s.freed b = 1 ∧ mapped s.vmas b = 0)

theorem freedOnce_of_owned {s : State} (ho : Owned s) : FreedOnce s := by
  intro b hb
  have htotal := ho b
  rw [if_pos hb, State.total] at htotal
  omega

theorem not_freedOnce_of_broken {s : State} (h : Broken s) : ¬FreedOnce s := by
  intro hf
  obtain ⟨b, hlt, hb⟩ := h
  have hone := hf b hlt
  rw [State.total] at hb
  omega

theorem owned_init : Owned init := by
  intro b
  rfl

/-- **Buffers are freed once.** After any sequence of calls each buffer that the module has obtained
    is mapped and was not freed, or is no longer mapped and was freed exactly once, if and only if
    every call was careful. -/
theorem buffers_freed_once_iff (m : Module) (acts : List Act) (s : State) (tr : List Unit)
    (hr : (driver m).run init acts = some (s, tr)) :
    FreedOnce s ↔ (driver m).Along (fun s a => careful m s a = true) init acts := by
  refine (driver m).run_along_iff (fun s a => careful m s a = true) (fun s _ => Owned s)
    (fun s _ => Broken s) ?_ ?_ ?_ owned_init hr freedOnce_of_owned not_freedOnce_of_broken
  · intro s tr a s' es hc ho hs
    exact owned_of_step ho hc hs
  · intro s tr a s' es hc ho hs
    exact broken_of_careless ho hc hs
  · intro s tr a s' es hb hs
    exact hb.grows (grows_of_step hs)

/-- A mapping at address 65536, for which everything succeeds. -/
def plainMmap : MmapCall := ⟨1, some 65536, true, true, 0⟩

theorem buffers_freed_once_iff_directCalls :
    ∃ s tr, (driver .modMmap).run init [.mmap plainMmap 5000, .munmap 1 65536 8192 true,
        .mmap plainMmap 5000, .exit 1] = some (s, tr) ∧ s.obtained = 2 ∧ FreedOnce s := by
  obtain ⟨s, tr, hr, hn⟩ := (driver .modMmap).exists_of_check init
    [.mmap plainMmap 5000, .munmap 1 65536 8192 true, .mmap plainMmap 5000, .exit 1]
    (fun s _ => s.obtained = 2) (by decide +kernel)
  refine ⟨s, tr, hr, hn, (buffers_freed_once_iff .modMmap _ s tr hr).mpr ?_⟩
  exact (driver .modMmap).along_of_check (careful .modMmap) _ init (by decide +kernel)

/-- The ioctls `SETSIZE`, `MMAP` and `UNMAP`. In mod_mmap.c the first buffer is never mapped and never
    freed, and in both modules that of the mapping is freed twice. -/
theorem unmap_frees_twice :
    (∃ s tr, (driver .modMmap).run init
        [.setSize 4096, .ioctlMmap true plainMmap, .ioctlUnmap 1 true] = some (s, tr) ∧
      s.vmas = [] ∧ s.obtained = 2 ∧ s.freed 0 = 0 ∧ s.freed 1 = 2) ∧
    ∃ s tr, (driver .modMmapSimple).run init
        [.setSize 4096, .ioctlMmap true plainMmap, .ioctlUnmap 1 true] = some (s, tr) ∧
      s.vmas = [] ∧ s.obtained = 1 ∧ s.freed 0 = 2 :=
  ⟨(driver .modMmap).exists_of_check init
      [.setSize 4096, .ioctlMmap true plainMmap, .ioctlUnmap 1 true]
      (fun s _ => s.vmas = [] ∧ s.obtained = 2 ∧ s.freed 0 = 0 ∧ s.freed 1 = 2)
      (by decide +kernel),
    (driver .modMmapSimple).exists_of_check init
      [.setSize 4096, .ioctlMmap true plainMmap, .ioctlUnmap 1 true]
      (fun s _ => s.vmas = [] ∧ s.obtained = 1 ∧ s.freed 0 = 2) (by decide +kernel)⟩

end DemosOsLinux.MmapModules
