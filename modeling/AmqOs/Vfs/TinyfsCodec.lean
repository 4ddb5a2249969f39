import AmqOs.Vfs.TinyfsDefs

/-!
# TinyFS metadata on the disk

`OnDisk d disk`: the metadata sectors of the disk hold the superblock, the table and the directory of `d`.

- the three write-back functions put their part there and touch no other sector (`writeSuperblock_spec`,
  `writeFat_spec`, `writeDirectory_spec`);
- `tinyfs_mount` of a disk that holds `d` gives `d` back (`mount_of_onDisk`);
- `tinyfs_format` leaves the disk of `freshData` (`format_onDisk`).
-/

set_option autoImplicit false

namespace AmqOs.Vfs

open AmqOs.Lib Mem

/-! ## Structures in a buffer -/

theorem ofSector_toSector {m : Mem} {x : Nat} (h : x < 512) : ofSector (toSector m) x = m x := by
  have h1 : x < 0 + 512 := by omega
  simp [ofSector, toSector, storeVec, loadVec, store_in (Nat.zero_le x) h1, h]

theorem ofSector_apply {s : Sector} {x : Nat} (h : x < 512) : ofSector s x = s.get ⟨x, h⟩ := by
  have h1 : x < 0 + 512 := by omega
  simp [ofSector, storeVec, store_in (Nat.zero_le x) h1, h, Vector.get]

theorem loadSuperblock_congr {m m' : Mem} {a : Nat} (h : ∀ x, a ≤ x → x < a + 24 → m x = m' x) :
    loadSuperblock m a = loadSuperblock m' a := by
  unfold loadSuperblock
  congr 1 <;> exact load32_congr fun x h1 h2 => h x (by omega) (by omega)

theorem loadSuperblock_store (m : Mem) (a : Nat) (sb : Superblock) :
    loadSuperblock (storeSuperblock m a sb) a = sb := by
  simp (disch := omega) only [loadSuperblock, storeSuperblock, load32_store32_out, load32_store32]

theorem loadDirent_congr {m m' : Mem} {a : Nat} (h : ∀ x, a ≤ x → x < a + 52 → m x = m' x) :
    loadDirent m a = loadDirent m' a := by
  have hname : loadVec m a 32 = loadVec m' a 32 := loadVec_congr fun x h1 h2 => h x (by omega) (by omega)
  have hpad : loadVec m (a + 48) 2 = loadVec m' (a + 48) 2 :=
    loadVec_congr fun x h1 h2 => h x (by omega) (by omega)
  have hword : ∀ o, o + 4 ≤ 52 → load32 m (a + o) = load32 m' (a + o) := fun o ho =>
    load32_congr fun x h1 h2 => h x (by omega) (by omega)
  simp only [loadDirent, hname, hpad, hword 32 (by omega), hword 36 (by omega), hword 44 (by omega),
    h (a + 40) (by omega) (by omega), h (a + 41) (by omega) (by omega)]

theorem storeDirent_out {m : Mem} {a x : Nat} {e : Dirent} (h : x < a ∨ a + 52 ≤ x) :
    storeDirent m a e x = m x := by
  unfold storeDirent
  rw [storeVec_out (by omega), store32_out (by omega), store_out (by omega), store_out (by omega),
    store32_out (by omega), store32_out (by omega), storeVec_out (by omega)]

theorem loadDirent_store (m : Mem) (a : Nat) (e : Dirent) : loadDirent (storeDirent m a e) a = e := by
  have hdir : storeDirent m a e (a + 40) = e.isDirectory := by
    unfold storeDirent
    rw [storeVec_out (by omega), store32_out (by omega), store_out (by omega), store_in (by omega) (by omega)]
  have hused : storeDirent m a e (a + 41) = e.used := by
    unfold storeDirent
    rw [storeVec_out (by omega), store32_out (by omega), store_in (by omega) (by omega)]
  unfold loadDirent
  rw [hdir, hused]
  simp (disch := omega) only [storeDirent, loadVec_storeVec_out, loadVec_store32_out, loadVec_store_out,
    loadVec_storeVec, load32_storeVec_out, load32_store32_out, load32_store_out, load32_store32]

/-- The buffer of block `i` of the table holds its entries. -/
theorem fatBuffer_load (fat : Vector UInt32 1024) (i : Nat) {j : Nat} (hj : j < 128) (h : i * 128 + j < 1024) :
    load32 (fatBuffer fat i) (4 * j) = fat.get ⟨i * 128 + j, h⟩ := by
  unfold fatBuffer
  refine forUpTo_inv (fun k m => ∀ j (h : i * 128 + j < 1024), j < k → load32 m (4 * j) = fat.get ⟨i * 128 + j, h⟩)
    (fun j _ hj => absurd hj (by omega)) ?_ j h hj
  intro k m _ ih j h hjk
  split
  · by_cases hkj : j = k
    · subst hkj
      exact load32_store32
    · rw [load32_store32_out (by omega)]
      exact ih j h (by omega)
  · exact ih j h (by omega)

/-- The buffer of block `i` of the directory holds its entries. -/
theorem dirBuffer_load (dirents : Vector Dirent 256) (i : Nat) {j : Nat} (hj : j < 9) (h : i * 9 + j < 256) :
    loadDirent (dirBuffer dirents i) (52 * j) = dirents.get ⟨i * 9 + j, h⟩ := by
  unfold dirBuffer
  refine forUpTo_inv (fun k m => ∀ j (h : i * 9 + j < 256), j < k →
    loadDirent m (52 * j) = dirents.get ⟨i * 9 + j, h⟩) (fun j _ hj => absurd hj (by omega)) ?_ j h hj
  intro k m _ ih j h hjk
  split
  · by_cases hkj : j = k
    · subst hkj
      exact loadDirent_store _ _ _
    · rw [loadDirent_congr fun x h1 h2 => storeDirent_out (by omega)]
      exact ih j h (by omega)
  · exact ih j h (by omega)

/-! ## Writing sectors -/

/-- What a loop of sector writes does to a reliable disk. -/
structure Wrote (lba : Nat → Nat) (buffer : Nat → Sector) (n : Nat) (disk disk' : Disk) : Prop where
  reliable : disk'.Reliable
  inside : ∀ i < n, disk'.sectors (lba i) = buffer i
  outside : ∀ l, (∀ i < n, l ≠ lba i) → disk'.sectors l = disk.sectors l

theorem writeSectors_reliable (lba : Nat → UInt32) (buffer : Nat → Sector) {n : Nat} {disk : Disk}
    (h : disk.Reliable) (hinj : ∀ i j, i < j → j < n → lbaOf (lba i) ≠ lbaOf (lba j)) :
    ∃ disk', writeSectors lba buffer n disk = (0, disk') ∧ Wrote (fun i => lbaOf (lba i)) buffer n disk disk' := by
  unfold writeSectors
  refine forUpTo_inv (fun k (s : Int × Disk) => ∃ disk', s = (0, disk') ∧
    Wrote (fun i => lbaOf (lba i)) buffer k disk disk')
    ⟨disk, rfl, h, fun i hi => absurd hi (by omega), fun _ _ => rfl⟩ ?_
  rintro k _ hk ⟨t, rfl, hw⟩
  refine ⟨t.put (lbaOf (lba k)) (buffer k), ?_, hw.reliable, fun i hi => ?_, fun l hl => ?_⟩
  · simp [ataWriteSectors_reliable hw.reliable]
  · by_cases hik : i = k
    · subst hik
      simp
    · rw [Disk.put_sectors_of_ne _ _ (hinj i k (by omega) hk)]
      exact hw.inside i (by omega)
  · rw [Disk.put_sectors_of_ne _ _ (hl k (by omega))]
    exact hw.outside l fun i hi => hl i (by omega)

/-- The sector numbers matter only below the bound. -/
theorem Wrote.congr {lba lba' : Nat → Nat} {buffer buffer' : Nat → Sector} {n : Nat} {disk disk' : Disk}
    (h : Wrote lba buffer n disk disk') (hl : ∀ i < n, lba' i = lba i) (hb : ∀ i < n, buffer' i = buffer i) :
    Wrote lba' buffer' n disk disk' :=
  ⟨h.reliable, fun i hi => by rw [hl i hi, hb i hi, h.inside i hi],
    fun l hne => h.outside l fun i hi => by rw [← hl i hi]; exact hne i hi⟩

/-- Consecutive sectors below 1024. -/
theorem lbaOf_add {start : UInt32} {s i : Nat} (hs : start.toNat = s) (h : s + i < 1024) :
    lbaOf (start + UInt32.ofNat i) = s + i := by
  have h1 : (start + UInt32.ofNat i).toNat = s + i := by
    rw [UInt32.toNat_add, UInt32.toNat_ofNat', hs]
    omega
  rw [lbaOf_of_lt (by omega), h1]

/-- The places where `tinyfs_format` puts the metadata. -/
structure Placed (sb : Superblock) : Prop where
  magic : sb.magic = tinyfsMagic
  fatStart : sb.fatStart = 1
  dirStart : sb.dirStart = 11

theorem writeFat_spec {d : TinyfsData} {disk : Disk} (hp : Placed d.sb) (h : disk.Reliable) :
    ∃ disk', writeFat d disk = (0, disk') ∧
      Wrote (fun i => 1 + i) (fun i => toSector (fatBuffer d.fat i)) 10 disk disk' := by
  have hl : ∀ i < 10, lbaOf (d.sb.fatStart + UInt32.ofNat i) = 1 + i := fun i hi =>
    lbaOf_add (by rw [hp.fatStart]; rfl) (by omega)
  obtain ⟨disk', he, hw⟩ := writeSectors_reliable (fun i => d.sb.fatStart + UInt32.ofNat i)
    (fun i => toSector (fatBuffer d.fat i)) (n := 10) h fun i j hij hj => by rw [hl i (by omega), hl j hj]; omega
  exact ⟨disk', he, hw.congr (fun i hi => (hl i hi).symm) fun _ _ => rfl⟩

theorem writeDirectory_spec {d : TinyfsData} {disk : Disk} (hp : Placed d.sb) (h : disk.Reliable) :
    ∃ disk', writeDirectory d disk = (0, disk') ∧
      Wrote (fun i => 11 + i) (fun i => toSector (dirBuffer d.dirents i)) 90 disk disk' := by
  have hl : ∀ i < 90, lbaOf (d.sb.dirStart + UInt32.ofNat i) = 11 + i := fun i hi =>
    lbaOf_add (by rw [hp.dirStart]; rfl) (by omega)
  obtain ⟨disk', he, hw⟩ := writeSectors_reliable (fun i => d.sb.dirStart + UInt32.ofNat i)
    (fun i => toSector (dirBuffer d.dirents i)) (n := 90) h
    fun i j hij hj => by rw [hl i (by omega), hl j hj]; omega
  exact ⟨disk', he, hw.congr (fun i hi => (hl i hi).symm) fun _ _ => rfl⟩

theorem writeSuperblock_spec (d : TinyfsData) {disk : Disk} (h : disk.Reliable) :
    ∃ disk', writeSuperblock d disk = (0, disk') ∧
      Wrote (fun _ => 0) (fun _ => toSector (storeSuperblock zeroBuffer 0 d.sb)) 1 disk disk' :=
  writeSectors_reliable (fun _ => 0) (fun _ => toSector (storeSuperblock zeroBuffer 0 d.sb)) h
    fun i j hij hj => by omega

/-! ## Metadata in place -/

/-- The metadata sectors hold `d`. -/
structure OnDisk (d : TinyfsData) (disk : Disk) : Prop where
  sb : disk.sectors 0 = toSector (storeSuperblock zeroBuffer 0 d.sb)
  fat : ∀ i < 10, disk.sectors (1 + i) = toSector (fatBuffer d.fat i)
  dir : ∀ i < 90, disk.sectors (11 + i) = toSector (dirBuffer d.dirents i)

/-- Data sectors do not matter. -/
theorem OnDisk.congr {d : TinyfsData} {disk disk' : Disk} (h : OnDisk d disk)
    (hs : ∀ l < 101, disk'.sectors l = disk.sectors l) : OnDisk d disk' :=
  ⟨by rw [hs 0 (by omega), h.sb], fun i hi => by rw [hs _ (by omega), h.fat i hi],
    fun i hi => by rw [hs _ (by omega), h.dir i hi]⟩

/-- What the write-back at the end of `tinyfs_write` and of `tinyfs_unlink` does. -/
structure Flushed (d : TinyfsData) (disk disk' : Disk) : Prop where
  reliable : disk'.Reliable
  onDisk : OnDisk d disk'
  outside : ∀ l, 101 ≤ l → disk'.sectors l = disk.sectors l

/-- Directory, table, superblock: the order of `tinyfs_write`. -/
theorem flush_write {d : TinyfsData} {disk : Disk} (hp : Placed d.sb) (h : disk.Reliable) :
    Flushed d disk (writeSuperblock d (writeFat d (writeDirectory d disk).2).2).2 := by
  obtain ⟨disk₁, e1, w1⟩ := writeDirectory_spec hp h
  obtain ⟨disk₂, e2, w2⟩ := writeFat_spec hp w1.reliable
  obtain ⟨disk₃, e3, w3⟩ := writeSuperblock_spec d w2.reliable
  simp only [e1, e2, e3]
  refine ⟨w3.reliable, ⟨w3.inside 0 (by omega), fun i hi => ?_, fun i hi => ?_⟩, fun l hl => ?_⟩
  · rw [w3.outside _ fun _ _ => by omega, w2.inside i hi]
  · rw [w3.outside _ fun _ _ => by omega, w2.outside _ fun _ _ => by omega, w1.inside i hi]
  · rw [w3.outside _ fun _ _ => by omega, w2.outside _ fun _ _ => by omega, w1.outside _ fun _ _ => by omega]

/-- Table, directory, superblock: the order of `tinyfs_unlink`. -/
theorem flush_unlink {d : TinyfsData} {disk : Disk} (hp : Placed d.sb) (h : disk.Reliable) :
    Flushed d disk (writeSuperblock d (writeDirectory d (writeFat d disk).2).2).2 := by
  obtain ⟨disk₁, e1, w1⟩ := writeFat_spec hp h
  obtain ⟨disk₂, e2, w2⟩ := writeDirectory_spec hp w1.reliable
  obtain ⟨disk₃, e3, w3⟩ := writeSuperblock_spec d w2.reliable
  simp only [e1, e2, e3]
  refine ⟨w3.reliable, ⟨w3.inside 0 (by omega), fun i hi => ?_, fun i hi => ?_⟩, fun l hl => ?_⟩
  · rw [w3.outside _ fun _ _ => by omega, w2.outside _ fun _ _ => by omega, w1.inside i hi]
  · rw [w3.outside _ fun _ _ => by omega, w2.inside i hi]
  · rw [w3.outside _ fun _ _ => by omega, w2.outside _ fun _ _ => by omega, w1.outside _ fun _ _ => by omega]

/-- Superblock, table, directory: the order of `tinyfs_unmount`. -/
theorem flush_unmount {d : TinyfsData} {disk : Disk} (hp : Placed d.sb) (h : disk.Reliable) :
    Flushed d disk (writeDirectory d (writeFat d (writeSuperblock d disk).2).2).2 := by
  obtain ⟨disk₁, e1, w1⟩ := writeSuperblock_spec d h
  obtain ⟨disk₂, e2, w2⟩ := writeFat_spec hp w1.reliable
  obtain ⟨disk₃, e3, w3⟩ := writeDirectory_spec hp w2.reliable
  simp only [e1, e2, e3]
  refine ⟨w3.reliable, ⟨?_, fun i hi => ?_, fun i hi => w3.inside i hi⟩, fun l hl => ?_⟩
  · rw [w3.outside _ fun _ _ => by omega, w2.outside _ fun _ _ => by omega, w1.inside 0 (by omega)]
  · rw [w3.outside _ fun _ _ => by omega, w2.inside i hi]
  · rw [w3.outside _ fun _ _ => by omega, w2.outside _ fun _ _ => by omega, w1.outside _ fun _ _ => by omega]

/-- The disk that `tinyfs_unmount` leaves. -/
def unmounted (d : TinyfsData) (disk : Disk) : Disk :=
  (writeDirectory d (writeFat d (writeSuperblock d disk).2).2).2

theorem unmounted_flushed {d : TinyfsData} {disk : Disk} (hp : Placed d.sb) (h : disk.Reliable) :
    Flushed d disk (unmounted d disk) :=
  flush_unmount hp h

/-! ## Mounting -/

theorem readSectors_reliable {lba : Nat → UInt32} {load : Nat → Mem → TinyfsData → TinyfsData} {n : Nat}
    {d : TinyfsData} {disk : Disk} (h : disk.Reliable) :
    readSectors lba load n d disk =
      (some (forUpTo (fun i d => load i (ofSector (disk.sectors (lbaOf (lba i)))) d) n d), disk) := by
  unfold readSectors
  induction n with
  | zero => rfl
  | succ n ih => simp only [forUpTo, ih, ataReadSectors_reliable h]

/-- After `n` rounds the first `n` entries of block `i` come from the buffer; the others are as before. -/
theorem loadFatBlock_rounds (i : Nat) (buffer : Mem) (d : TinyfsData) {n : Nat} (hn : n ≤ 128) :
    let d' := forUpTo (fun j (d : TinyfsData) => if h : i * 128 + j < 1024 then
      { d with fat := d.fat.set (i * 128 + j) (buffer.load32 (4 * j)) } else d) n d
    d'.sb = d.sb ∧ d'.dirents = d.dirents ∧ ∀ k : Fin 1024, d'.fat.get k =
      if k.val / 128 = i ∧ k.val % 128 < n then load32 buffer (4 * (k.val % 128)) else d.fat.get k := by
  induction n with
  | zero => exact ⟨rfl, rfl, fun k => by simp [forUpTo]⟩
  | succ n ih =>
    obtain ⟨h1, h2, h3⟩ := ih (by omega)
    simp only [forUpTo]
    split
    · refine ⟨h1, h2, fun k => ?_⟩
      rw [get_set, h3 k]
      by_cases hk : i * 128 + n = k.val
      · have h5 : k.val / 128 = i ∧ k.val % 128 < n + 1 := by omega
        have h6 : k.val % 128 = n := by omega
        rw [if_pos hk, if_pos h5, h6]
      · have h5 : (k.val / 128 = i ∧ k.val % 128 < n + 1) ↔ (k.val / 128 = i ∧ k.val % 128 < n) := by omega
        rw [if_neg hk]
        simp only [h5]
    · refine ⟨h1, h2, fun k => ?_⟩
      have hk := k.isLt
      have h5 : (k.val / 128 = i ∧ k.val % 128 < n + 1) ↔ (k.val / 128 = i ∧ k.val % 128 < n) := by omega
      rw [h3 k]
      simp only [h5]

theorem loadDirBlock_rounds (i : Nat) (buffer : Mem) (d : TinyfsData) {n : Nat} (hn : n ≤ 9) :
    let d' := forUpTo (fun j (d : TinyfsData) => if h : i * 9 + j < 256 then
      { d with dirents := d.dirents.set (i * 9 + j) (loadDirent buffer (52 * j)) } else d) n d
    d'.sb = d.sb ∧ d'.fat = d.fat ∧ ∀ k : Fin 256, d'.dirents.get k =
      if k.val / 9 = i ∧ k.val % 9 < n then loadDirent buffer (52 * (k.val % 9)) else d.dirents.get k := by
  induction n with
  | zero => exact ⟨rfl, rfl, fun k => by simp [forUpTo]⟩
  | succ n ih =>
    obtain ⟨h1, h2, h3⟩ := ih (by omega)
    simp only [forUpTo]
    split
    · refine ⟨h1, h2, fun k => ?_⟩
      rw [get_set, h3 k]
      by_cases hk : i * 9 + n = k.val
      · have h5 : k.val / 9 = i ∧ k.val % 9 < n + 1 := by omega
        have h6 : k.val % 9 = n := by omega
        rw [if_pos hk, if_pos h5, h6]
      · have h5 : (k.val / 9 = i ∧ k.val % 9 < n + 1) ↔ (k.val / 9 = i ∧ k.val % 9 < n) := by omega
        rw [if_neg hk]
        simp only [h5]
    · refine ⟨h1, h2, fun k => ?_⟩
      have hk := k.isLt
      have h5 : (k.val / 9 = i ∧ k.val % 9 < n + 1) ↔ (k.val / 9 = i ∧ k.val % 9 < n) := by omega
      rw [h3 k]
      simp only [h5]

/-- The table read from the sectors that hold it. -/
theorem readFat_eq (d₀ : TinyfsData) {d : TinyfsData} {disk : Disk} {lba : Nat → Nat}
    (hf : ∀ i < 10, disk.sectors (lba i) = toSector (fatBuffer d.fat i)) :
    ∃ d', forUpTo (fun i d => loadFatBlock i (ofSector (disk.sectors (lba i))) d) 10 d₀ = d' ∧
      d'.sb = d₀.sb ∧ d'.dirents = d₀.dirents ∧ d'.fat = d.fat := by
  refine ⟨_, rfl, ?_⟩
  have hinv := forUpTo_inv (f := fun i d => loadFatBlock i (ofSector (disk.sectors (lba i))) d) (n := 10) (s := d₀)
    (fun n d' => d'.sb = d₀.sb ∧ d'.dirents = d₀.dirents ∧
      ∀ k : Fin 1024, k.val / 128 < n → d'.fat.get k = d.fat.get k)
    ⟨rfl, rfl, fun k hk => absurd hk (by omega)⟩ ?_
  · obtain ⟨h1, h2, h3⟩ := hinv
    exact ⟨h1, h2, vec_ext fun k => h3 k (by omega)⟩
  · rintro i t hi ⟨h1, h2, h3⟩
    obtain ⟨g1, g2, g3⟩ := loadFatBlock_rounds i (ofSector (disk.sectors (lba i))) t (le_refl 128)
    refine ⟨g1.trans h1, g2.trans h2, fun k hk => (g3 k).trans ?_⟩
    by_cases hki : k.val / 128 = i
    · have hidx : i * 128 + k.val % 128 < 1024 := by omega
      rw [if_pos ⟨hki, by omega⟩, hf i hi, load32_congr fun x h1 h2 => ofSector_toSector (by omega),
        fatBuffer_load d.fat i (by omega) hidx]
      congr 1
      exact Fin.ext (by simp only; omega)
    · rw [if_neg (by omega)]
      exact h3 k (by omega)

/-- The directory read from the sectors that hold it. -/
theorem readDir_eq (d₀ : TinyfsData) {d : TinyfsData} {disk : Disk} {lba : Nat → Nat}
    (hf : ∀ i < 90, disk.sectors (lba i) = toSector (dirBuffer d.dirents i)) :
    ∃ d', forUpTo (fun i d => loadDirBlock i (ofSector (disk.sectors (lba i))) d) 90 d₀ = d' ∧
      d'.sb = d₀.sb ∧ d'.fat = d₀.fat ∧ d'.dirents = d.dirents := by
  refine ⟨_, rfl, ?_⟩
  have hinv := forUpTo_inv (f := fun i d => loadDirBlock i (ofSector (disk.sectors (lba i))) d) (n := 90) (s := d₀)
    (fun n d' => d'.sb = d₀.sb ∧ d'.fat = d₀.fat ∧
      ∀ k : Fin 256, k.val / 9 < n → d'.dirents.get k = d.dirents.get k)
    ⟨rfl, rfl, fun k hk => absurd hk (by omega)⟩ ?_
  · obtain ⟨h1, h2, h3⟩ := hinv
    exact ⟨h1, h2, vec_ext fun k => h3 k (by omega)⟩
  · rintro i t hi ⟨h1, h2, h3⟩
    obtain ⟨g1, g2, g3⟩ := loadDirBlock_rounds i (ofSector (disk.sectors (lba i))) t (le_refl 9)
    refine ⟨g1.trans h1, g2.trans h2, fun k hk => (g3 k).trans ?_⟩
    by_cases hki : k.val / 9 = i
    · have hidx : i * 9 + k.val % 9 < 256 := by omega
      rw [if_pos ⟨hki, by omega⟩, hf i hi, loadDirent_congr fun x h1 h2 => ofSector_toSector (by omega),
        dirBuffer_load d.dirents i (by omega) hidx]
      congr 1
      exact Fin.ext (by simp only; omega)
    · rw [if_neg (by omega)]
      exact h3 k (by omega)

/-- **Mounting a disk that holds `d` gives `d`.** -/
theorem mount_of_onDisk {d : TinyfsData} {disk : Disk} (hp : Placed d.sb) (hr : disk.Reliable) (h : OnDisk d disk)
    (raw : TinyfsData) (device : CString) :
    ∃ d', tinyfsMount (some raw) device disk = (some d', disk) ∧ d'.sb = d.sb ∧ d'.fat = d.fat ∧
      d'.dirents = d.dirents := by
  have hsb : loadSuperblock (ofSector (disk.sectors 0)) 0 = d.sb := by
    rw [h.sb, loadSuperblock_congr fun x h1 h2 => ofSector_toSector (by omega), loadSuperblock_store]
  have hfat : ∀ i < 10, disk.sectors (lbaOf (d.sb.fatStart + UInt32.ofNat i)) = toSector (fatBuffer d.fat i) := by
    intro i hi
    rw [lbaOf_add (s := 1) (by rw [hp.fatStart]; rfl) (by omega), h.fat i hi]
  have hdir : ∀ i < 90, disk.sectors (lbaOf (d.sb.dirStart + UInt32.ofNat i)) =
      toSector (dirBuffer d.dirents i) := by
    intro i hi
    rw [lbaOf_add (s := 11) (by rw [hp.dirStart]; rfl) (by omega), h.dir i hi]
  have h0 : lbaOf 0 = 0 := rfl
  simp only [tinyfsMount, ataReadSectors_reliable hr, h0, hsb, hp.magic, ne_eq, not_true_eq_false, if_false,
    readSectors_reliable hr]
  obtain ⟨d₁, e1, f1, f2, f3⟩ :=
    readFat_eq ⟨d.sb, raw.fat, raw.dirents, CString.strcpy raw.device device⟩ hfat
  rw [e1]
  obtain ⟨d₂, e2, g1, g2, g3⟩ := readDir_eq d₁ hdir
  rw [e2]
  exact ⟨d₂, rfl, g1.trans f1, g2.trans f3, g3⟩

/-- **Unmounting and mounting again**: in the layout of `tinyfs_format`, whatever the other fields of the superblock,
the table and the directory hold, a mount after an unmount finds them all, and no data sector has changed. -/
theorem unmount_mount {d : TinyfsData} {disk : Disk} (hp : Placed d.sb) (hr : disk.Reliable) (raw : TinyfsData)
    (device : CString) :
    ∃ disk', tinyfsUnmount (some d) disk = (0, none, disk') ∧
      (∀ l, 101 ≤ l → disk'.sectors l = disk.sectors l) ∧
      ∃ d', tinyfsMount (some raw) device disk' = (some d', disk') ∧ d'.sb = d.sb ∧ d'.fat = d.fat ∧
        d'.dirents = d.dirents := by
  have hfl := unmounted_flushed hp hr
  exact ⟨unmounted d disk, rfl, hfl.outside, mount_of_onDisk hp hfl.reliable hfl.onDisk raw device⟩

/-! ## Formatting -/

def freshFat : Vector UInt32 1024 := Vector.ofFn fun i => if i.val < 101 then eof else 0

def emptyDirent : Dirent := ⟨Vector.replicate 32 0, 0, 0, 0, 0, 0, Vector.replicate 2 0⟩

def freshDirents : Vector Dirent 256 := Vector.replicate 256 emptyDirent

theorem freshFat_get (i : Fin 1024) : freshFat.get i = if i.val < 101 then eof else 0 := by
  simp [freshFat, get_eq]

@[simp] theorem freshDirents_get (i : Fin 256) : freshDirents.get i = emptyDirent := by
  simp [freshDirents, get_eq]

theorem formatFatBuffer_eq (i : Nat) : formatFatBuffer (i + 1) = fatBuffer freshFat i := by
  unfold formatFatBuffer fatBuffer
  congr 1
  funext j buffer
  simp only [Nat.add_sub_cancel]
  split
  · rename_i h
    rw [freshFat_get]
    split <;> rfl
  · rfl

theorem store_zero (a n : Nat) {f : Nat → UInt8} (hf : ∀ k, f k = 0) : zeroBuffer.store a n f = zeroBuffer := by
  funext x
  simp [Mem.store, hf, zeroBuffer]

theorem storeDirent_empty (a : Nat) : storeDirent zeroBuffer a emptyDirent = zeroBuffer := by
  have hw : ∀ b, zeroBuffer.store32 b 0 = zeroBuffer := fun b => by
    unfold Mem.store32 Mem.storeLE
    exact store_zero b 4 fun k => by simp
  have hv : ∀ b n, zeroBuffer.storeVec b (Vector.replicate n 0) = zeroBuffer := fun b n =>
    store_zero b n fun k => by simp [Vector.getElem?_replicate]; split <;> rfl
  have hb : ∀ b, (zeroBuffer.store b 1 fun _ => 0) = zeroBuffer := fun b => store_zero b 1 fun _ => rfl
  simp only [storeDirent, emptyDirent, hw, hv, hb]

theorem dirBuffer_fresh (i : Nat) : dirBuffer freshDirents i = zeroBuffer := by
  unfold dirBuffer
  refine forUpTo_inv (fun _ m => m = zeroBuffer) rfl ?_
  rintro k m _ rfl
  split
  · rw [freshDirents_get, storeDirent_empty]
  · rfl

/-- **Formatting** leaves a disk with the metadata of an empty filesystem, and no data sector changed. -/
theorem format_onDisk {disk : Disk} (h : disk.Reliable) (device : Vector UInt8 32) :
    ∃ disk', tinyfsFormat disk = (0, disk') ∧ disk'.Reliable ∧
      OnDisk ⟨formatSuperblock, freshFat, freshDirents, device⟩ disk' ∧
      ∀ l, 101 ≤ l → disk'.sectors l = disk.sectors l := by
  have hsb := ataWriteSectors_reliable h 0 (toSector (storeSuperblock zeroBuffer 0 formatSuperblock))
  have hlba : ∀ k, k < 1000 → lbaOf (UInt32.ofNat k) = k := fun k hk => by
    unfold lbaOf
    rw [UInt32.toNat_ofNat']
    omega
  have h1 : (disk.put (lbaOf 0) (toSector (storeSuperblock zeroBuffer 0 formatSuperblock))).Reliable := h
  obtain ⟨disk₂, e2, w2⟩ := writeSectors_reliable (fun k => UInt32.ofNat (k + 1))
    (fun k => toSector (formatFatBuffer (k + 1))) (n := 10) h1
    fun i j hij hj => by rw [hlba _ (by omega), hlba _ (by omega)]; omega
  obtain ⟨disk₃, e3, w3⟩ := writeSectors_reliable (fun k => UInt32.ofNat (k + 11)) (fun _ => toSector zeroBuffer)
    (n := 90) w2.reliable fun i j hij hj => by rw [hlba _ (by omega), hlba _ (by omega)]; omega
  refine ⟨disk₃, ?_, w3.reliable, ⟨?_, fun i hi => ?_, fun i hi => ?_⟩, fun l hl => ?_⟩
  · simp only [tinyfsFormat, hsb, e2, e3, ne_eq, not_true_eq_false, if_false]
  · rw [w3.outside 0 fun i hi => by rw [hlba _ (by omega)]; omega,
      w2.outside 0 fun i hi => by rw [hlba _ (by omega)]; omega]
    exact Disk.put_sectors_self _ _ _
  · have hin := w2.inside i hi
    simp only [hlba (i + 1) (by omega), formatFatBuffer_eq] at hin
    rw [w3.outside _ fun k hk => by rw [hlba _ (by omega)]; omega, Nat.add_comm, hin]
  · have hin := w3.inside i hi
    simp only [hlba (i + 11) (by omega)] at hin
    rw [Nat.add_comm, hin, dirBuffer_fresh]
  · rw [w3.outside l fun i hi => by rw [hlba _ (by omega)]; omega,
      w2.outside l fun i hi => by rw [hlba _ (by omega)]; omega]
    exact Disk.put_sectors_of_ne _ _ (by show l ≠ 0; omega)

/-- `tinyfs_format` and then `tinyfs_mount`, both successful. -/
def formatAndMount (raw : TinyfsData) (device : CString) (disk : Disk) : Option Tinyfs :=
  let (result, disk) := tinyfsFormat disk
  if result ≠ 0 then none
  else match tinyfsMount (some raw) device disk with
    | (none, _) => none
    | (some d, disk) => some ⟨d, disk⟩

/-- A freshly formatted and mounted filesystem. -/
structure Fresh (s : Tinyfs) : Prop where
  sb : s.data.sb = formatSuperblock
  fat : s.data.fat = freshFat
  dirents : s.data.dirents = freshDirents
  reliable : s.disk.Reliable
  onDisk : OnDisk s.data s.disk

theorem formatAndMount_fresh {disk : Disk} (h : disk.Reliable) (raw : TinyfsData) (device : CString) :
    ∃ s, formatAndMount raw device disk = some s ∧ Fresh s ∧
      ∀ l, 101 ≤ l → s.disk.sectors l = disk.sectors l := by
  obtain ⟨disk', hf, hr, ho, hs⟩ := format_onDisk h raw.device
  obtain ⟨d, hm, m1, m2, m3⟩ := mount_of_onDisk ⟨rfl, rfl, rfl⟩ hr ho raw device
  refine ⟨⟨d, disk'⟩, ?_, ⟨m1, m2, m3, hr, ?_⟩, hs⟩
  · simp [formatAndMount, hf, hm]
  · exact ⟨by rw [m1]; exact ho.sb, fun i hi => by rw [m2]; exact ho.fat i hi,
      fun i hi => by rw [m3]; exact ho.dir i hi⟩

/-- A disk of zeros that never fails. -/
def blankDisk : Disk := ⟨fun _ => Vector.replicate 512 0, fun _ => .done⟩

/-- Memory of zeros for the private data. -/
def blankData : TinyfsData := ⟨⟨0, 0, 0, 0, 0, 0⟩, Vector.replicate 1024 0, freshDirents, Vector.replicate 32 0⟩

theorem blankDisk_reliable : blankDisk.Reliable := fun _ => rfl

def charA : CChar := ⟨97, by decide⟩

def charB : CChar := ⟨98, by decide⟩

def nameA : CString := [charA]

def nameB : CString := [charB]

/-- Tables with the directory `/a`, the file `/a/b` and the file `/b`. -/
def nestedData : TinyfsData where
  sb := formatSuperblock
  fat := freshFat
  dirents := Vector.ofFn fun i =>
    if 1 = i.val then createDirent emptyDirent nameA .directory 0
    else if 2 = i.val then createDirent emptyDirent nameB .regular 1
    else if 3 = i.val then createDirent emptyDirent nameB .regular 0
    else emptyDirent
  device := Vector.replicate 32 0

theorem nestedData_get (i : Fin 256) : nestedData.dirents.get i =
    if 1 = i.val then createDirent emptyDirent nameA .directory 0
    else if 2 = i.val then createDirent emptyDirent nameB .regular 1
    else if 3 = i.val then createDirent emptyDirent nameB .regular 0
    else emptyDirent := by
  simp only [nestedData, get_eq, Vector.getElem_ofFn]

/-- The same directory with a full allocation table. -/
def filledData : TinyfsData := { nestedData with fat := Vector.replicate 1024 7 }

theorem unmount_mount_filled : Placed filledData.sb ∧ blankDisk.Reliable ∧
    ∃ disk', tinyfsUnmount (some filledData) blankDisk = (0, none, disk') ∧
      (∀ l, 101 ≤ l → disk'.sectors l = blankDisk.sectors l) ∧
      ∃ d', tinyfsMount (some blankData) [] disk' = (some d', disk') ∧ d'.sb = filledData.sb ∧
        d'.fat = filledData.fat ∧ d'.dirents = filledData.dirents := by
  have hp : Placed filledData.sb := ⟨rfl, rfl, rfl⟩
  exact ⟨hp, blankDisk_reliable, unmount_mount hp blankDisk_reliable blankData []⟩

end AmqOs.Vfs
