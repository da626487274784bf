/-
  The RAM disk as an array of sectors.

  The requests that the block layer sends are inside the device (`set_capacity`), and their segments
  are made of whole sectors.
  * `memblockRequest_write`, `memblockRequest_read`: such a request is one copy, however it is cut
    into segments.
  * `sectorAt_of_run`: after any requests a sector holds the last data written to it.
  * `ramdisk_is_sector_array`: so the disk is an array of sectors.
-/
import Mathlib.Data.List.Induction
import DemosOsLinux.RamDisk.Transfer

namespace DemosOsLinux.RamDisk

open Lib

def nsectors : Nat := 2048

/-- The bytes of all segments. -/
def flat (gs : List Segment) : List UInt8 := (gs.map Segment.bytes).flatten

def Request.data (r : Request) : List UInt8 := flat r.segments

/-- The number of sectors. -/
def Request.count (r : Request) : Nat := r.data.length / 512

/-- What the block layer guarantees. -/
structure Request.Inside (r : Request) : Prop where
  whole : ∀ g ∈ r.segments, 512 ∣ g.bytes.length
  fits : r.pos.toNat + r.count ≤ nsectors

/-! ## One segment -/

section Segments

variable {data : ByteMemory} {sector : UInt64} {g : Segment} {gs : List Segment}

theorem toNat_offset (h : sector.toNat ≤ nsectors) : (sector * 512).toNat = sector.toNat * 512 := by
  have hn : nsectors = 2048 := rfl
  rw [UInt64.toNat_mul]
  change sector.toNat * 512 % 2 ^ 64 = _
  omega

/-- A segment inside the disk is not rejected. -/
theorem memblockTransfer_inside (hdvd : 512 ∣ g.bytes.length)
    (hfit : sector.toNat + g.bytes.length / 512 ≤ nsectors) (write : Bool) :
    memblockTransfer data sector (g.len / 512) g.bytes write =
      if write then (data.store (sector * 512) g.bytes, g.bytes,
        .copied (sector * 512) (UInt64.ofNat g.bytes.length))
      else (data, data.load (sector * 512) g.bytes.length,
        .copied (sector * 512) (UInt64.ofNat g.bytes.length)) := by
  have hn : nsectors = 2048 := rfl
  have hsize : memblockSize.toNat = 1048576 := rfl
  have hoff := toNat_offset (Nat.le_trans (Nat.le_add_right _ _) hfit)
  have hbytes := toNat_nbytes g
  rw [Nat.div_mul_cancel hdvd] at hbytes
  have hnbytes : (g.len / 512).toUInt64 * 512 = UInt64.ofNat g.bytes.length := by
    rw [← UInt64.toNat_inj, hbytes, UInt64.toNat_ofNat', Nat.mod_eq_of_lt (by omega)]
  have hend : ¬sector * 512 + (g.len / 512).toUInt64 * 512 > memblockSize := by
    rw [gt_iff_lt, UInt64.lt_iff_toNat_lt, UInt64.toNat_add, hoff, hbytes]
    omega
  simp only [memblockTransfer]
  rw [if_neg hend, hbytes, hnbytes, List.take_length, List.drop_length, List.append_nil]

theorem next_sector (hdvd : 512 ∣ g.bytes.length)
    (hfit : sector.toNat + g.bytes.length / 512 ≤ nsectors) :
    (sector + (g.len / 512).toUInt64).toNat = sector.toNat + g.bytes.length / 512 ∧
      (sector + (g.len / 512).toUInt64) * 512 =
        sector * 512 + UInt64.ofNat g.bytes.length := by
  have hn : nsectors = 2048 := rfl
  have hnext : (sector + (g.len / 512).toUInt64).toNat =
      sector.toNat + g.bytes.length / 512 := by
    rw [UInt64.toNat_add, toNat_nsect, Nat.mod_eq_of_lt (by omega)]
  refine ⟨hnext, ?_⟩
  rw [← UInt64.toNat_inj, toNat_offset (hnext ▸ hfit), hnext, UInt64.toNat_add,
    toNat_offset (by omega), UInt64.toNat_ofNat']
  omega

/-! ## All segments -/

theorem flat_cons : flat (g :: gs) = g.bytes ++ flat gs := rfl

theorem dvd_length_flat (h : ∀ g ∈ gs, 512 ∣ g.bytes.length) : 512 ∣ (flat gs).length := by
  induction gs with
  | nil => exact Nat.dvd_zero 512
  | cons g gs ih =>
    rw [flat_cons, List.length_append]
    exact Nat.dvd_add (h g List.mem_cons_self) (ih fun g' hg' => h g' (List.mem_cons_of_mem g hg'))

/-- The room for the first segment, and for the others behind it. -/
theorem fits_cons (h : ∀ g' ∈ g :: gs, 512 ∣ g'.bytes.length)
    (hfit : sector.toNat + (flat (g :: gs)).length / 512 ≤ nsectors) :
    sector.toNat + g.bytes.length / 512 ≤ nsectors ∧
      (sector + (g.len / 512).toUInt64).toNat + (flat gs).length / 512 ≤ nsectors := by
  have hg := h g List.mem_cons_self
  rw [flat_cons, List.length_append] at hfit
  have hfirst : sector.toNat + g.bytes.length / 512 ≤ nsectors := by omega
  rw [(next_sector hg hfirst).1]
  omega

theorem segmentLoop_write (h : ∀ g ∈ gs, 512 ∣ g.bytes.length)
    (hfit : sector.toNat + (flat gs).length / 512 ≤ nsectors) :
    (segmentLoop true data sector gs).1 = data.store (sector * 512) (flat gs) ∧
      (segmentLoop true data sector gs).2.1 = gs.map Segment.bytes := by
  induction gs generalizing data sector with
  | nil => exact ⟨rfl, rfl⟩
  | cons g gs ih =>
    have hn : nsectors = 2048 := rfl
    have hg := h g List.mem_cons_self
    obtain ⟨hfirst, hrest⟩ := fits_cons h hfit
    obtain ⟨hmem, hbuf⟩ :
        (segmentLoop true (data.store (sector * 512) g.bytes)
            (sector + (g.len / 512).toUInt64) gs).1 = _ ∧ _ :=
      ih (fun g' hg' => h g' (List.mem_cons_of_mem g hg')) hrest
    have hlen : g.bytes.length + (flat gs).length ≤ 2 ^ 64 := by
      have hdvd := dvd_length_flat fun g' hg' => h g' (List.mem_cons_of_mem g hg')
      omega
    simp only [segmentLoop, memblockTransfer_inside hg hfirst, if_true, List.map_cons]
    rw [hmem, hbuf, (next_sector hg hfirst).2, ByteMemory.store_append hlen]
    exact ⟨rfl, rfl⟩

theorem segmentLoop_read (h : ∀ g ∈ gs, 512 ∣ g.bytes.length)
    (hfit : sector.toNat + (flat gs).length / 512 ≤ nsectors) :
    (segmentLoop false data sector gs).1 = data ∧
      (segmentLoop false data sector gs).2.1.flatten =
        data.load (sector * 512) (flat gs).length ∧
      (segmentLoop false data sector gs).2.1.map List.length =
        gs.map fun g => g.bytes.length := by
  induction gs generalizing sector with
  | nil => exact ⟨rfl, rfl, rfl⟩
  | cons g gs ih =>
    have hg := h g List.mem_cons_self
    obtain ⟨hfirst, hrest⟩ := fits_cons h hfit
    obtain ⟨hmem, hbuf, hlens⟩ := ih (fun g' hg' => h g' (List.mem_cons_of_mem g hg')) hrest
    simp only [segmentLoop, memblockTransfer_inside hg hfirst, Bool.false_eq_true, if_false,
      List.map_cons, List.flatten_cons]
    refine ⟨hmem, ?_, ?_⟩
    · rw [hbuf, (next_sector hg hfirst).2, flat_cons, List.length_append, ByteMemory.load_append]
    · rw [hlens, ByteMemory.length_load]

end Segments

/-! ## Sectors -/

/-- The bytes of sector `s`. -/
def sectorAt (data : ByteMemory) (s : Nat) : List UInt8 := data.load (UInt64.ofNat (s * 512)) 512

/-- Sector `s` is one of the request's. -/
def Request.covers (r : Request) (s : Nat) : Bool :=
  r.pos.toNat ≤ s && s < r.pos.toNat + r.count

/-- The request's data for sector `s`. -/
def Request.dataAt (r : Request) (s : Nat) : List UInt8 :=
  (r.data.drop ((s - r.pos.toNat) * 512)).take 512

/-- The last data written to sector `s` in a history of requests. -/
def lastWritten (init : Nat → List UInt8) (history : List Request) (s : Nat) : List UInt8 :=
  match history.reverse.find? fun r => r.write && r.covers s with
  | some r => r.dataAt s
  | none => init s

theorem lastWritten_append (init : Nat → List UInt8) (history : List Request) (r : Request)
    (s : Nat) :
    lastWritten init (history ++ [r]) s =
      if r.write && r.covers s then r.dataAt s else lastWritten init history s := by
  rw [lastWritten, List.reverse_append, List.reverse_singleton, List.singleton_append,
    List.find?_cons]
  cases r.write && r.covers s <;> rfl

section Sectors

variable {data : ByteMemory} {r : Request} {s : Nat}

theorem mul_512_eq (x : UInt64) : x * 512 = UInt64.ofNat (x.toNat * 512) := by
  rw [UInt64.ofNat_mul, UInt64.ofNat_toNat]
  rfl

theorem Request.Inside.length_eq (h : r.Inside) : r.data.length = r.count * 512 :=
  (Nat.div_mul_cancel (dvd_length_flat h.whole)).symm

theorem memblockRequest_write (data : ByteMemory) (h : r.Inside) (hw : r.write = true) :
    (memblockRequest data r).1 = data.store (UInt64.ofNat (r.pos.toNat * 512)) r.data ∧
      (memblockRequest data r).2.buffers = r.segments.map Segment.bytes := by
  simp only [memblockRequest, hw, ← mul_512_eq]
  exact segmentLoop_write h.whole h.fits

theorem memblockRequest_read (data : ByteMemory) (h : r.Inside) (hw : r.write = false) :
    (memblockRequest data r).1 = data ∧
      (memblockRequest data r).2.buffers.flatten =
        data.load (UInt64.ofNat (r.pos.toNat * 512)) r.data.length ∧
      (memblockRequest data r).2.buffers.map List.length =
        r.segments.map fun g => g.bytes.length := by
  simp only [memblockRequest, hw, ← mul_512_eq]
  exact segmentLoop_read h.whole h.fits

theorem load_sectors (data : ByteMemory) (s n : Nat) :
    data.load (UInt64.ofNat (s * 512)) (n * 512) =
      (List.range n).flatMap fun k => sectorAt data (s + k) := by
  induction n with
  | zero => rfl
  | succ n ih =>
    rw [Nat.succ_mul, ByteMemory.load_append, ih, List.range_succ, List.flatMap_append,
      List.flatMap_singleton, sectorAt, ← UInt64.ofNat_add, ← Nat.add_mul]

/-- A sector after a write. -/
theorem sectorAt_write (h : r.Inside) (hs : s < nsectors) :
    sectorAt (data.store (UInt64.ofNat (r.pos.toNat * 512)) r.data) s =
      if r.covers s then r.dataAt s else sectorAt data s := by
  have hn : nsectors = 2048 := rfl
  have hlen := h.length_eq
  have hfits := h.fits
  by_cases hc : r.covers s = true
  · rw [if_pos hc]
    simp only [Request.covers, Bool.and_eq_true, decide_eq_true_eq] at hc
    have hbase : UInt64.ofNat (s * 512) =
        UInt64.ofNat (r.pos.toNat * 512) + UInt64.ofNat ((s - r.pos.toNat) * 512) := by
      rw [← UInt64.ofNat_add, ← Nat.add_mul, Nat.add_sub_cancel' hc.1]
    rw [sectorAt, hbase, ByteMemory.load_store_inside (by omega) (by omega)]
    rfl
  · rw [if_neg hc]
    simp only [Request.covers, Bool.and_eq_true, decide_eq_true_eq] at hc
    refine ByteMemory.load_store_outside fun i hi => ?_
    rw [UInt64.toNat_sub, UInt64.toNat_add, UInt64.toNat_ofNat', UInt64.toNat_ofNat',
      UInt64.toNat_ofNat']
    omega

/-- The bytes outside the request's sectors. -/
theorem write_outside (h : r.Inside) {a : UInt64}
    (ha : a.toNat < r.pos.toNat * 512 ∨ (r.pos.toNat + r.count) * 512 ≤ a.toNat) :
    data.store (UInt64.ofNat (r.pos.toNat * 512)) r.data a = data a := by
  have hn : nsectors = 2048 := rfl
  have hlen := h.length_eq
  have hfits := h.fits
  have hlt := a.toNat_lt
  refine ByteMemory.store_outside ?_
  rw [UInt64.toNat_sub, UInt64.toNat_ofNat']
  omega

end Sectors

/-! ## All requests -/

variable {data : ByteMemory}

theorem step_sectorAt {r : Request} (h : r.Inside) {s : Nat} (hs : s < nsectors) :
    sectorAt (memblockRequest data r).1 s =
      if r.write && r.covers s then r.dataAt s else sectorAt data s := by
  cases hw : r.write with
  | true =>
    rw [(memblockRequest_write data h hw).1, sectorAt_write h hs, Bool.true_and]
  | false =>
    rw [(memblockRequest_read data h hw).1]
    rfl

/-- After any requests a sector holds the last data written to it. -/
theorem sectorAt_of_run {reqs : List Request} (h : ∀ r ∈ reqs, r.Inside) {init : ByteMemory}
    {tr : List Response} (hr : ramdisk.run init reqs = some (data, tr)) {s : Nat}
    (hs : s < nsectors) : sectorAt data s = lastWritten (sectorAt init) reqs s := by
  induction reqs using List.reverseRecOn generalizing data tr with
  | nil =>
    obtain ⟨rfl, rfl⟩ := result_inj hr
    rfl
  | append_singleton reqs r ih =>
    obtain ⟨data₁, es, es₂, hr₁, hr₂, rfl⟩ := (ramdisk.run_append_eq_some _ _ _ _ _).mp hr
    obtain ⟨rfl, rfl⟩ := result_inj hr₂
    rw [lastWritten_append, step_sectorAt (h r (by simp)) hs,
      ih (fun r' hr' => h r' (List.mem_append_left _ hr')) hr₁]

/-- The same request, cut in another way; what a read finds in its buffers does not matter. -/
structure SameRequest (r r' : Request) : Prop where
  pos : r.pos = r'.pos
  write : r.write = r'.write
  length : r.data.length = r'.data.length
  data : r.write = true → r.data = r'.data

theorem SameRequest.request_eq {r r' : Request} (hsame : SameRequest r r') (h : r.Inside)
    (h' : r'.Inside) (data : ByteMemory) :
    (memblockRequest data r).1 = (memblockRequest data r').1 ∧
      (memblockRequest data r).2.buffers.flatten = (memblockRequest data r').2.buffers.flatten := by
  cases hw : r.write with
  | true =>
    have hdata := hsame.data hw
    rw [hsame.write] at hw
    obtain ⟨hm, hb⟩ := memblockRequest_write data h (hsame.write.trans hw)
    obtain ⟨hm', hb'⟩ := memblockRequest_write data h' hw
    rw [hm, hm', hb, hb', hsame.pos, hdata]
    exact ⟨rfl, hdata⟩
  | false =>
    have hw' := hsame.write.symm.trans hw
    obtain ⟨hm, hb, _⟩ := memblockRequest_read data h hw
    obtain ⟨hm', hb', _⟩ := memblockRequest_read data h' hw'
    rw [hm, hm', hb, hb', hsame.pos, hsame.length]
    exact ⟨rfl, rfl⟩

theorem run_same {reqs reqs' : List Request} (hsame : List.Forall₂ SameRequest reqs reqs')
    (h : ∀ r ∈ reqs, r.Inside) (h' : ∀ r ∈ reqs', r.Inside) {init data' : ByteMemory}
    {tr tr' : List Response} (hr : ramdisk.run init reqs = some (data, tr))
    (hr' : ramdisk.run init reqs' = some (data', tr')) : data = data' := by
  induction hsame generalizing init tr tr' with
  | nil =>
    cases hr
    cases hr'
    rfl
  | @cons r r' reqs reqs' hrr hrest ih =>
    obtain ⟨d, es, es₂, hs, hr₁, _⟩ := (ramdisk.run_cons_eq_some _ _ _ _ _).mp hr
    obtain ⟨d', es', es₂', hs', hr₁', _⟩ := (ramdisk.run_cons_eq_some _ _ _ _ _).mp hr'
    obtain ⟨rfl, rfl⟩ := result_inj hs
    obtain ⟨rfl, rfl⟩ := result_inj hs'
    have heq := (hrr.request_eq (h r List.mem_cons_self) (h' r' List.mem_cons_self) init).1
    rw [← heq] at hr₁'
    exact ih (fun q hq => h q (List.mem_cons_of_mem r hq))
      (fun q hq => h' q (List.mem_cons_of_mem r' hq)) hr₁ hr₁'

/-- **The RAM disk is an array of sectors.** After any requests inside the device, made of segments
    of whole sectors, a further such request `r` behaves as follows. A read changes nothing and
    fills its segments, in order, with the last data written to each of its sectors, or with what
    the disk held at first. A write puts its data into its sectors and changes no other byte. The
    memory and the bytes that are read are the same for every other way to cut these requests into
    segments. -/
theorem ramdisk_is_sector_array (reqs : List Request) (h : ∀ r ∈ reqs, r.Inside)
    (init data : ByteMemory) (tr : List Response)
    (hr : ramdisk.run init reqs = some (data, tr)) (r : Request) (hin : r.Inside) :
    (r.write = false →
      (memblockRequest data r).1 = data ∧
      (memblockRequest data r).2.buffers.map List.length =
        r.segments.map (fun g => g.bytes.length) ∧
      (memblockRequest data r).2.buffers.flatten =
        (List.range r.count).flatMap fun k =>
          lastWritten (sectorAt init) reqs (r.pos.toNat + k)) ∧
    (r.write = true →
      (∀ s, r.covers s = true → sectorAt (memblockRequest data r).1 s = r.dataAt s) ∧
      ∀ a : UInt64, a.toNat < r.pos.toNat * 512 ∨ (r.pos.toNat + r.count) * 512 ≤ a.toNat →
        (memblockRequest data r).1 a = data a) ∧
    ∀ reqs' data' tr' r', List.Forall₂ SameRequest reqs reqs' → (∀ q ∈ reqs', q.Inside) →
      ramdisk.run init reqs' = some (data', tr') → SameRequest r r' → r'.Inside →
      (memblockRequest data r).1 = (memblockRequest data' r').1 ∧
      (memblockRequest data r).2.buffers.flatten =
        (memblockRequest data' r').2.buffers.flatten := by
  have hfits := hin.fits
  refine ⟨fun hw => ?_, fun hw => ⟨fun s hs => ?_, fun a ha => ?_⟩, ?_⟩
  · obtain ⟨hm, hb, hlens⟩ := memblockRequest_read data hin hw
    refine ⟨hm, hlens, ?_⟩
    rw [hb, hin.length_eq, load_sectors]
    refine List.flatMap_congr fun k hk => ?_
    rw [List.mem_range] at hk
    exact sectorAt_of_run h hr (by omega)
  · have hlt : s < nsectors := by
      simp only [Request.covers, Bool.and_eq_true, decide_eq_true_eq] at hs
      omega
    rw [step_sectorAt hin hlt, hw, hs]
    rfl
  · rw [(memblockRequest_write data hin hw).1]
    exact write_outside hin ha
  · intro reqs' data' tr' r' hsame h' hr' hsame' hin'
    obtain rfl := run_same hsame h h' hr hr'
    exact hsame'.request_eq hin hin' data

/-- A write to sector 3. -/
def writeThree : Request := ⟨3, true, [filled 1]⟩

/-- A read of sectors 3 and 4, in two segments. -/
def readThreeFour : Request := ⟨3, false, [filled 7, filled 7]⟩

theorem inside_writeThree : writeThree.Inside :=
  ⟨by decide +kernel, by decide +kernel⟩

theorem inside_readThreeFour : readThreeFour.Inside :=
  ⟨by decide +kernel, by decide +kernel⟩

theorem ramdisk_is_sector_array_rereadRun :
    ∃ data tr, ramdisk.run (fun _ => 0) [writeThree] = some (data, tr) ∧
      (memblockRequest data readThreeFour).2.buffers.flatten =
        List.replicate 512 1 ++ List.replicate 512 0 := by
  refine ⟨_, _, rfl, ?_⟩
  have hinside : ∀ r ∈ [writeThree], r.Inside := by
    intro r hr
    rw [List.mem_singleton.mp hr]
    exact inside_writeThree
  obtain ⟨hread, _⟩ := ramdisk_is_sector_array [writeThree] hinside (fun _ => 0) _ _ rfl
    readThreeFour inside_readThreeFour
  rw [(hread rfl).2.2]
  decide +kernel

end DemosOsLinux.RamDisk
