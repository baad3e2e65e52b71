import ImageSpec.Files
import ImageSpec.Proofs.Builds

namespace ImageSpec.Files

/-!
# Files that are written

* `write_cases` — a file is written at the place that a path aims at, or nothing changes.
* `Aims.put` — a path still aims at the same place when a file stands there, so that what has been
  written once can be written again.
* `read_of_write`, `readText_of_write` — what was written is read.
* `exists_write_of_isWritable` — whether a file can be written is a question of its path alone.
-/

variable {fs fs' : Files} {path : String} {place : Place} {content : ByteArray}

/-! ### What stands at a place -/

theorem node?_put_self (hplace : place ≠ []) (n : Node) :
    (fs.put place n).node? place = some n := by
  have hsome : place.isEmpty = false := by simpa using hplace
  simp [node?, put, hsome]

theorem lookup_filter_of_ne {p : Place} (hne : p ≠ place) (nodes : List (Place × Node)) :
    (nodes.filter fun (q, _) => q != place).lookup p = nodes.lookup p := by
  induction nodes with
  | nil => rfl
  | cons x rest ih =>
    obtain ⟨q, m⟩ := x
    by_cases hq : q = place
    · subst hq
      have hkey : (p == q) = false := by simpa using hne
      simp [List.lookup_cons, hkey, ih]
    · simp [List.lookup_cons, hq, ih]

/-- Everything else is unchanged. -/
theorem node?_put_of_ne {p : Place} (hne : p ≠ place) (n : Node) :
    (fs.put place n).node? p = fs.node? p := by
  have hkey : (p == place) = false := by simpa using hne
  simp [node?, put, List.lookup_cons, hkey, lookup_filter_of_ne hne]

/-- The root is a directory. -/
theorem ne_nil_of_isDirectoryAt_eq_false (h : fs.isDirectoryAt place = false) : place ≠ [] := by
  rintro rfl
  simp [isDirectoryAt, node?] at h

/-- A file in the place of no directory leaves the directories as they are. -/
theorem isDirectoryAt_put (h : fs.isDirectoryAt place = false) (content : ByteArray) (p : Place) :
    (fs.put place (.file content)).isDirectoryAt p = fs.isDirectoryAt p := by
  by_cases hp : p = place
  · subst hp
    rw [h, isDirectoryAt, node?_put_self (ne_nil_of_isDirectoryAt_eq_false h)]
  · rw [isDirectoryAt, node?_put_of_ne hp, isDirectoryAt]

/-! ### Following a path when a file has been written -/

/-- A file where there is no directory changes no path. -/
theorem follow_put (h : fs.isDirectoryAt place = false) (content : ByteArray) (start : Place)
    (segment : String) :
    (fs.put place (.file content)).follow start segment = fs.follow start segment := by
  rw [follow, isDirectoryAt_put h, follow]

/-- What existed still exists. -/
theorem isSome_node?_put (h : fs.isDirectoryAt place = false) (content : ByteArray) {p : Place}
    (hp : (fs.node? p).isSome = true) :
    ((fs.put place (.file content)).node? p).isSome = true := by
  by_cases hne : p = place
  · subst hne
    rw [node?_put_self (ne_nil_of_isDirectoryAt_eq_false h)]
    rfl
  · rwa [node?_put_of_ne hne]

/-- A walk goes one segment at a time. -/
theorem walk_cons_eq_ok_iff {start p : Place} {segment : String} {rest : List String} :
    fs.walk start (segment :: rest) = .ok p ↔
      ∃ next, fs.follow start segment = .ok next ∧ (fs.node? next).isSome = true ∧
        fs.walk next rest = .ok p := by
  rw [walk]
  rcases fs.follow start segment with fault | next
  · simp
  · by_cases hnode : (fs.node? next).isSome = true <;> simp [hnode]

/-- A way that was there is still there.  The converse fails: the new file may be on a way that
    ended in nothing before. -/
theorem walk_put (h : fs.isDirectoryAt place = false) (content : ByteArray) {names : List String}
    {start p : Place} (hwalk : fs.walk start names = .ok p) :
    (fs.put place (.file content)).walk start names = .ok p := by
  induction names generalizing start with
  | nil => exact hwalk
  | cons segment rest ih =>
    obtain ⟨next, hfollow, hnode, hrest⟩ := walk_cons_eq_ok_iff.mp hwalk
    refine walk_cons_eq_ok_iff.mpr ⟨next, ?_, isSome_node?_put h content hnode, ih hrest⟩
    rw [follow_put h, hfollow]

theorem walk_concat {names : List String} {last : String} {start holder : Place}
    (hwalk : fs.walk start names = .ok holder) (hfollow : fs.follow holder last = .ok place)
    (hnode : (fs.node? place).isSome = true) : fs.walk start (names ++ [last]) = .ok place := by
  induction names generalizing start with
  | nil =>
    obtain rfl : start = holder := by simpa [walk] using hwalk
    exact walk_cons_eq_ok_iff.mpr ⟨place, hfollow, hnode, rfl⟩
  | cons segment rest ih =>
    obtain ⟨next, hnext, hsome, hrest⟩ := walk_cons_eq_ok_iff.mp hwalk
    exact walk_cons_eq_ok_iff.mpr ⟨next, hnext, hsome, ih hrest⟩

/-! ### The place that a path aims at -/

/-- A path aims at a place: a file can be written there, whether one stands there or not. -/
structure Aims (fs : Files) (path : String) (place : Place) : Prop where
  isPath : checkPath path = .ok ()
  endsInName : endsInSlash path = false
  isFollowed : ∃ names last holder, segments path = names ++ [last] ∧
    fs.walk (fs.origin path) names = .ok holder ∧ fs.follow holder last = .ok place
  isFree : fs.isDirectoryAt place = false

/-- Only a directory can be followed into. -/
theorem isDirectoryAt_of_follow {start : Place} {segment : String}
    (h : fs.follow start segment = .ok place) : fs.isDirectoryAt start = true := by
  rcases hstart : fs.isDirectoryAt start
  · simp [follow, hstart] at h
  · rfl

/-- The holder of a file is where its path leads without the last segment. -/
theorem locateHolder_eq_ok_iff {holder : Place} {last : String} :
    fs.locateHolder path = .ok (holder, last) ↔
      checkPath path = .ok () ∧
        fs.walk (fs.origin path) (segments path).dropLast = .ok holder ∧
          (segments path).getLastD "." = last := by
  rw [locateHolder]
  rcases checkPath path with fault | ⟨⟩
  · simp [bind, Except.bind]
  · rcases hwalk : fs.walk (fs.origin path) (segments path).dropLast with fault | place <;>
      simp [bind, Except.bind, pure, Except.pure, hwalk]

/-- The path of a file has a last segment: without one it leads to a directory. -/
theorem segments_eq_concat {holder : Place} {last : String}
    (hlast : (segments path).getLastD "." = last) (hfollow : fs.follow holder last = .ok place)
    (hfree : fs.isDirectoryAt place = false) :
    segments path = (segments path).dropLast ++ [last] := by
  have hstart := isDirectoryAt_of_follow hfollow
  rcases hnames : segments path with _ | ⟨name, rest⟩
  · -- a path of slashes alone stands for the directory where it starts
    obtain rfl : last = "." := by simpa [hnames] using hlast.symm
    obtain rfl : holder = place := by simpa [follow, hstart] using hfollow
    simp [hstart] at hfree
  · have hne : segments path ≠ [] := by simp [hnames]
    rw [← hnames, ← hlast, List.getLastD_eq_getLast?, List.getLast?_eq_some_getLast hne,
      Option.getD_some, List.dropLast_concat_getLast]

/-- A file can be written at the place that its path aims at. -/
theorem write_of_aims (h : fs.Aims path place) (content : ByteArray) :
    fs.write path content = (.ok (), fs.put place (.file content)) := by
  obtain ⟨names, last, holder, hsegments, hwalk, hfollow⟩ := h.isFollowed
  have hholder : fs.locateHolder path = .ok (holder, last) := by
    rw [locateHolder_eq_ok_iff, hsegments]
    exact ⟨h.isPath, by simpa using hwalk, by simp⟩
  rw [write, hholder]
  simp [h.endsInName, hfollow, h.isFree]

/-- **What writing does.** It puts a file at the place that its path aims at and changes nothing
    else, or it fails and changes nothing at all. -/
theorem write_cases (fs : Files) (path : String) (content : ByteArray) :
    (∃ place, fs.Aims path place ∧
        fs.write path content = (.ok (), fs.put place (.file content))) ∨
      ∃ fault, fs.write path content = (.error fault, fs) := by
  rw [write]
  rcases hholder : fs.locateHolder path with fault | ⟨holder, last⟩
  · exact .inr ⟨fault, rfl⟩
  dsimp only
  split
  · exact .inr ⟨.isDirectory, rfl⟩
  rename_i hslash
  rcases hfollow : fs.follow holder last with fault | place
  · exact .inr ⟨fault, rfl⟩
  dsimp only
  split
  · exact .inr ⟨.isDirectory, rfl⟩
  rename_i hfree
  obtain ⟨hcheck, hwalk, hlast⟩ := locateHolder_eq_ok_iff.mp hholder
  -- the test of the slash counts in a directory only, and the holder is one
  have hstart := isDirectoryAt_of_follow hfollow
  refine .inl ⟨place, ⟨hcheck, by simpa [hstart] using hslash, ?_, by simpa using hfree⟩, rfl⟩
  exact ⟨_, last, holder, segments_eq_concat hlast hfollow (by simpa using hfree), hwalk, hfollow⟩

/-- A file is written at the place that its path aims at, and nothing else changes. -/
theorem write_eq_ok_iff :
    fs.write path content = (.ok (), fs') ↔
      ∃ place, fs.Aims path place ∧ fs' = fs.put place (.file content) := by
  constructor
  · intro h
    rcases write_cases fs path content with ⟨place, haims, hwrite⟩ | ⟨fault, hwrite⟩
    · exact ⟨place, haims, congrArg Prod.snd (h.symm.trans hwrite)⟩
    · cases h.symm.trans hwrite
  · rintro ⟨place, haims, rfl⟩
    exact write_of_aims haims content

namespace Aims

/-- A path still aims at the same place when a file stands there. -/
theorem put (h : fs.Aims path place) (content : ByteArray) :
    (fs.put place (.file content)).Aims path place := by
  obtain ⟨names, last, holder, hsegments, hwalk, hfollow⟩ := h.isFollowed
  refine ⟨h.isPath, h.endsInName, ⟨names, last, holder, hsegments, ?_, ?_⟩, ?_⟩
  · exact walk_put h.isFree content hwalk
  · rw [follow_put h.isFree, hfollow]
  · rw [isDirectoryAt_put h.isFree, h.isFree]

/-- What stands at the place that a path aims at is found. -/
theorem locate (h : fs.Aims path place) (hnode : (fs.node? place).isSome = true) :
    fs.locate path = .ok place := by
  obtain ⟨names, last, holder, hsegments, hwalk, hfollow⟩ := h.isFollowed
  rw [Files.locate, h.isPath, hsegments, walk_concat hwalk hfollow hnode]
  simp [h.endsInName, bind, Except.bind]

/-- A file is found where it has been put. -/
theorem locate_put (h : fs.Aims path place) (content : ByteArray) :
    (fs.put place (.file content)).locate path = .ok place := by
  refine (h.put content).locate ?_
  rw [node?_put_self (ne_nil_of_isDirectoryAt_eq_false h.isFree)]
  rfl

end Aims

/-! ### Reading what was written -/

/-- A file exists once it has been written. -/
theorem contains_of_write (h : fs.write path content = (.ok (), fs')) : fs'.contains path = true := by
  obtain ⟨place, haims, rfl⟩ := write_eq_ok_iff.mp h
  rw [contains, haims.locate_put]
  rfl

/-- The bytes that were written are read. -/
theorem read_of_write (h : fs.write path content = (.ok (), fs')) : fs'.read path = .ok content := by
  obtain ⟨place, haims, rfl⟩ := write_eq_ok_iff.mp h
  rw [read, haims.locate_put]
  simp [node?_put_self (ne_nil_of_isDirectoryAt_eq_false haims.isFree)]

/-- The text that was written is read. -/
theorem readText_of_write {text : String} (h : fs.write path text.toUTF8 = (.ok (), fs')) :
    fs'.readText path = .ok text := by
  rw [readText, read_of_write h]
  simp only [Text.ofUtf8?, Text.decode_toUTF8, String.ofList_toList]

/-! ### Paths that can be written -/

/-- Whether a file can be written at a path; what it holds does not matter. -/
def isWritable (fs : Files) (path : String) : Bool := (fs.write path .empty).1.toBool

/-- A file can be written exactly if its path aims at a place. -/
theorem isWritable_iff : fs.isWritable path = true ↔ ∃ place, fs.Aims path place := by
  constructor
  · intro h
    rcases write_cases fs path .empty with ⟨place, haims, -⟩ | ⟨fault, hwrite⟩
    · exact ⟨place, haims⟩
    · simp [isWritable, hwrite, Except.toBool] at h
  · rintro ⟨place, haims⟩
    rw [isWritable, write_of_aims haims]
    rfl

/-- What can be written with nothing in it can be written with anything. -/
theorem exists_write_of_isWritable (h : fs.isWritable path = true) (content : ByteArray) :
    ∃ fs', fs.write path content = (.ok (), fs') := by
  obtain ⟨place, haims⟩ := isWritable_iff.mp h
  exact ⟨_, write_of_aims haims content⟩

/-- What has been written can be written again. -/
theorem isWritable_of_write (h : fs.write path content = (.ok (), fs')) :
    fs'.isWritable path = true := by
  obtain ⟨place, haims, rfl⟩ := write_eq_ok_iff.mp h
  exact isWritable_iff.mpr ⟨place, haims.put content⟩

end ImageSpec.Files
