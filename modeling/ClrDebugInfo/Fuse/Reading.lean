import ClrDebugInfo.Fuse.Mount
import ClrDebugInfo.Server.Cache

/-!
# Reading through the mount while the daemon extracts

`xmp_open` of `src/fuse.c` closes its descriptor at once, and `xmp_read` opens the file anew for
every read. So a program that reads a file through the mount does not read the file that it has
opened, but the one that has its name when the read comes; and the daemon may meanwhile extract
another archive with that name in it.

What is read is never foreign: it is the content of a file of that name in one of the archives, or
the beginning of it. That it is always that of the same file holds exactly as long as the name is
not extracted again.
-/

namespace ClrDebugInfo

open Inodes Runs

/-! ## The handlers -/

/-- A mount over the part of the cache that has a prefix; `resolve` is where a link leads. -/
structure CacheView where
  pfx : Bytes
  resolve : CachePath → Bytes → Option CachePath

/-- The regular file that `open` and `pread` get at, through at most `links` links. A directory can
be opened, but not read. -/
def CacheView.file (v : CacheView) (c : Cache) : ℕ → CachePath → Except Errno (CachePath × ℕ)
  | links, p =>
    match c.nodes p with
    | none => .error .noent
    | some (.file ino) => .ok (p, ino)
    | some .dir => .error .isdir
    | some (.symlink target) =>
      match links, v.resolve p target with
      | 0, _ => .error .loop
      | _ + 1, none => .error .noent
      | links + 1, some q => v.file c links q

/-- `pread` on a regular file. -/
def Cache.pread (c : Cache) (ino size offset : ℕ) : Bytes :=
  match c.inodes ino with
  | none => []
  | some f => (f.data.drop offset).take size

/-- `xmp_read`: what it returns, and the bytes in the buffer. What `open` or `pread` fails with for
another reason is `fails`. -/
def xmpRead (v : CacheView) (c : Cache) (alloc : Bool) (fails : Option Errno) (path : Bytes)
    (size offset : ℕ) : ℤ × Bytes :=
  match makeDotpath alloc path, fails with
  | none, _ => (-Errno.nomem.code, [])
  | some _, some e => (-e.code, [])
  | some newpath, none =>
    match v.file c 40 ⟨v.pfx, newpath⟩ with
    | .error e => (-e.code, [])
    | .ok (_, ino) => ((c.pread ino size offset).length, c.pread ino size offset)

/-- The place in the cache that a path of the mount stands for. -/
def CacheView.place (v : CacheView) (path : Bytes) : CachePath := ⟨v.pfx, 46 :: path⟩

/-! ## One read -/

variable {cfg : Config} {v : CacheView} {c : Cache} {path : Bytes} {size offset : ℕ}
  {alloc : Bool} {fails : Option Errno}

/-- What is in a buffer is at the offset in a file of the name `p` in one of the archives, as far as
it goes. -/
def ReadsPublished (cfg : Config) (archives : List Bytes) (p : CachePath) (size offset : ℕ)
    (bs : Bytes) : Prop :=
  bs = [] ∨ ∃ m data, InArchive cfg archives m ∧ m.name = p.name ∧ m.content = .file data ∧
    bs <+: (data.drop offset).take size

theorem take_drop_prefix {α : Type} {l l' : List α} (h : l <+: l') (size offset : ℕ) :
    (l.drop offset).take size <+: (l'.drop offset).take size := by
  obtain ⟨rest, rfl⟩ := h
  rcases Nat.le_total offset l.length with hle | hge
  · rw [List.drop_append_of_le_length hle]
    rcases Nat.le_total size (l.drop offset).length with hsize | hsize
    · rw [List.take_append_of_le_length hsize]
    · rw [List.take_of_length_le hsize, List.take_append, List.take_of_length_le hsize]
      exact List.prefix_append _ _
  · rw [List.drop_eq_nil_of_le hge, List.take_nil]
    exact List.nil_prefix

theorem CacheSound.pread {archives : List Bytes} {w : ℕ → Option (ℕ × Bytes)}
    (h : CacheSound cfg archives c w) {q : CachePath} {ino : ℕ}
    (hq : c.nodes q = some (.file ino)) (size offset : ℕ) :
    ReadsPublished cfg archives q size offset (c.pread ino size offset) := by
  rw [Cache.pread]
  cases hf : c.inodes ino with
  | none => exact Or.inl rfl
  | some f =>
    have hlookup : c.lookup q = some f := by
      rw [Cache.lookup, hq]
      exact hf
    obtain ⟨m, data, hm, hname, hdata, hpfx, -⟩ := h.published hlookup
    exact Or.inr ⟨m, data, hm, hname, hdata, take_drop_prefix hpfx size offset⟩

/-! ## A file that is read in parts -/

/-- A handler begins to extract an entry with the name `p`: it takes away what has the name, or
creates the entry if nothing is in its way. -/
def Replaces (p : CachePath) (s : Daemon) (a : Act) : Prop :=
  ∃ i job m ms, (a = .thread i .tarUnlink ∨ a = .thread i .tarCreate) ∧
    s.threads[i]? = some (.extracting job (m :: ms) none) ∧
    (⟨job.request.pfx, m.name⟩ : CachePath) = p

/-- The name `p` stands for the whole file `ino`. -/
structure Stands (cfg : Config) (p : CachePath) (ino : ℕ) (data : Bytes) (s : Daemon) : Prop where
  sound : ∃ archives, s.Sound cfg archives
  node : s.sh.cache.nodes p = some (.file ino)
  inode : s.sh.cache.inodes ino = some ⟨data, true⟩

theorem CacheSound.inode_write {archives : List Bytes} {w : ℕ → Option (ℕ × Bytes)}
    (h : CacheSound cfg archives c w) {ino i j : ℕ} {data bs : Bytes}
    (hino : c.inodes ino = some ⟨data, true⟩) (hw : w i = some (j, bs)) (n : ℕ) :
    (c.write j (bs.take n)).inodes ino = some ⟨data, true⟩ := by
  simp only [Cache.write]
  split
  next heq =>
    subst heq
    obtain ⟨m, data', -, -, -, hclosed, -, hwrite⟩ := h.sound ino _ hino
    have hnil : bs = [] := List.append_right_eq_self.mp ((hwrite i bs hw).trans (hclosed rfl).symm)
    simp [hino, hnil]
  · exact hino

theorem CacheSound.inode_close {ino j : ℕ} {data : Bytes}
    (hino : c.inodes ino = some ⟨data, true⟩) :
    (c.close j).inodes ino = some ⟨data, true⟩ := by
  simp only [Cache.close]
  split
  · rw [hino, Option.map_some]
  · exact hino

theorem CacheSound.create_of_ne {archives : List Bytes} {w : ℕ → Option (ℕ × Bytes)}
    (h : CacheSound cfg archives c w) {p q : CachePath} {ino : ℕ} {data : Bytes}
    (hnode : c.nodes p = some (.file ino)) (hino : c.inodes ino = some ⟨data, true⟩)
    (content : Content) (hpq : p ≠ q) :
    (c.create q content).1.inodes ino = some ⟨data, true⟩ ∧
      (c.create q content).1.nodes p = some (.file ino) := by
  have hne : ino ≠ c.next := Nat.ne_of_lt (h.named p ino hnode)
  cases content with
  | file bs => exact ⟨(if_neg hne).trans hino, (if_neg hpq).trans hnode⟩
  | dir | symlink => exact ⟨hino, (if_neg hpq).trans hnode⟩

theorem Cache.Free.ne {p q : CachePath} {content : Content} {ino : ℕ} (h : c.Free q content)
    (hnode : c.nodes p = some (.file ino)) : p ≠ q := by
  rintro rfl
  rcases h with h | ⟨-, h⟩
  · exact absurd (hnode.symm.trans h) (by simp)
  · exact absurd (hnode.symm.trans h) (by simp)

/-- **One step of the daemon.** -/
theorem Stands.step {p : CachePath} {ino : ℕ} {data : Bytes} {s s' : Daemon} {a : Act}
    (hs : Stands cfg p ino data s) (h : step cfg s a = some s') :
    (Replaces p s a → s'.sh.cache.nodes p ≠ some (.file ino)) ∧
      (¬Replaces p s a → Stands cfg p ino data s') := by
  obtain ⟨⟨archives, hsound⟩, hnode, hino⟩ := hs
  have hsound' := hsound.step h
  have hsame : s'.sh.cache = s.sh.cache → Stands cfg p ino data s' := by
    intro heq
    exact ⟨⟨_, hsound'⟩, heq ▸ hnode, heq ▸ hino⟩
  have hnone : (∀ i b, a ≠ .thread i b) → ¬Replaces p s a := by
    rintro hne ⟨i, job, m, ms, ha | ha, -⟩ <;> exact hne i _ ha
  cases step_cases h with
  | main h =>
    refine ⟨fun hrep ↦ absurd hrep (hnone (by simp)), fun _ ↦ hsame ?_⟩
    generalize s.loop = l at h
    cases h <;> rfl
  | tick => exact ⟨fun hrep ↦ absurd hrep (hnone (by simp)), fun _ ↦ hsame rfl⟩
  | @thread i a pc sh' pc' hloop hpc hstep =>
    have hwriting : ∀ x, pc.writing = some x → s.writing i = some x := by
      intro x hx
      rw [Daemon.writing, hpc, Option.bind_some, hx]
    have hnot : a ≠ .tarUnlink → a ≠ .tarCreate → ¬Replaces p s (.thread i a) := by
      rintro hne hne' ⟨j, job, m, ms, ha | ha, -⟩
      · exact hne (Act.thread.inj ha).2
      · exact hne' (Act.thread.inj ha).2
    have hname : ∀ job m ms, pc = .extracting job (m :: ms) none → Replaces p s (.thread i a) →
        p = ⟨job.request.pfx, m.name⟩ := by
      rintro job m ms rfl ⟨j, job', m', ms', ha, hj, rfl⟩
      obtain rfl : i = j := by rcases ha with ha | ha <;> exact (Act.thread.inj ha).1
      obtain ⟨rfl, hlist, -⟩ := Pc.extracting.inj (Option.some.inj (hpc.symm.trans hj))
      obtain ⟨rfl, -⟩ := List.cons.inj hlist
      rfl
    cases hstep with
    | @unlink job m ms =>
      refine ⟨fun hrep ↦ ?_, fun hkeep ↦ ⟨⟨_, hsound'⟩, ?_, hino⟩⟩
      · simp [Cache.unlink, ← hname job m ms rfl hrep]
      · refine (if_neg fun hp ↦ hkeep ?_).trans hnode
        exact ⟨i, job, m, ms, Or.inl rfl, hpc, hp.symm⟩
    | @create job m ms hfree =>
      have hne := hfree.ne hnode
      obtain ⟨hino', hnode'⟩ := hsound.cache.create_of_ne hnode hino m.content hne
      exact ⟨fun hrep ↦ absurd (hname job m ms rfl hrep) hne,
        fun _ ↦ ⟨⟨_, hsound'⟩, hnode', hino'⟩⟩
    | @write job ms j bs n =>
      refine ⟨fun hrep ↦ absurd hrep (hnot (by simp) (by simp)),
        fun _ ↦ ⟨⟨_, hsound'⟩, hnode, ?_⟩⟩
      exact hsound.cache.inode_write hino (hwriting _ rfl) n
    | close =>
      refine ⟨fun hrep ↦ absurd hrep (hnot (by simp) (by simp)),
        fun _ ↦ ⟨⟨_, hsound'⟩, hnode, ?_⟩⟩
      exact CacheSound.inode_close hino
    | _ => exact ⟨fun hrep ↦ absurd hrep (hnot (by simp) (by simp)), fun _ ↦ hsame rfl⟩

end ClrDebugInfo
