import Encapsulate.Proofs.OutputDirectory
import Mathlib.Algebra.Ring.Nat

/-!
Files under different spellings. A path may lead to a file through empty segments, single
dots and ways up, and what is asked for beside the file is written behind the directory part
of that path. Where nothing is too long, the spelling does not matter: from every path to a
file, a relative path leads to the same place.
-/

namespace Encapsulate

namespace Path

theorem segments_intercalate {ss : List String} (hne : ss ≠ [])
    (hss : ∀ s ∈ ss, '/' ∉ s.toList) : segments (String.intercalate "/" ss) = ss := by
  induction ss with
  | nil => exact absurd rfl hne
  | cons s ss ih =>
    obtain ⟨hs, hss⟩ := List.forall_mem_cons.mp hss
    cases ss with
    | nil =>
      rw [String.intercalate_singleton, segments, segmentsOf_eq_singleton hs,
        String.ofList_toList]
    | cons u us =>
      have hrest := ih (List.cons_ne_nil _ _) hss
      rw [segments] at hrest
      rw [String.intercalate_cons_cons, segments, String.toList_append, String.toList_append,
        List.append_assoc]
      change segmentsOf (s.toList ++ '/' :: (String.intercalate "/" (u :: us)).toList) = _
      rw [segmentsOf_append_slash, segmentsOf_eq_singleton hs, hrest, String.ofList_toList]
      rfl

/-- What is trimmed off are segments that name nothing. -/
theorem exists_trimSegments (ss : List String) :
    ∃ voids, ss = trimSegments ss ++ voids ∧ ∀ s ∈ voids, isVoid s = true := by
  refine ⟨(ss.reverse.takeWhile isVoid).reverse, ?_, ?_⟩
  · rw [trimSegments, ← List.reverse_append, List.takeWhile_append_dropWhile,
      List.reverse_reverse]
  · intro s hs
    exact List.all_eq_true.mp List.all_takeWhile s (List.mem_reverse.mp hs)

theorem isVoid_getLast_trimSegments {ss : List String} {s : String}
    (h : (trimSegments ss).getLast? = some s) : isVoid s = false := by
  rw [trimSegments, List.getLast?_reverse] at h
  have hhead := List.head?_dropWhile_not isVoid ss.reverse
  rw [h] at hhead
  simpa using hhead

theorem trimSegments_concat {name : String} (h : isVoid name = false) (ss : List String) :
    trimSegments (ss ++ [name]) = ss ++ [name] := by
  simp [trimSegments, h]

theorem mem_of_mem_segmentsOf {cs : List Char} {s : String} {c : Char} (hs : s ∈ segmentsOf cs)
    (hc : c ∈ s.toList) : c ∈ cs := by
  induction cs generalizing s with
  | nil =>
    rw [segmentsOf_eq_singleton (by simp), List.mem_singleton] at hs
    simp [hs] at hc
  | cons d cs ih =>
    by_cases hd : d = '/'
    · rw [hd, segmentsOf_cons_slash] at hs
      rcases List.mem_cons.mp hs with rfl | hs
      · simp at hc
      · exact List.mem_cons_of_mem _ (ih hs hc)
    · obtain ⟨first, later, hcs, hcons⟩ := segmentsOf_cons hd cs
      rw [hcons] at hs
      rw [hcs] at ih
      rcases List.mem_cons.mp hs with rfl | hs
      · rw [String.toList_ofList] at hc
        rcases List.mem_cons.mp hc with rfl | hc
        · exact List.mem_cons_self
        · exact List.mem_cons_of_mem _ (ih List.mem_cons_self (by rwa [String.toList_ofList]))
      · exact List.mem_cons_of_mem _ (ih (List.mem_cons_of_mem _ hs) hc)

theorem utf8ByteSize_ofList_cons (c : Char) (cs : List Char) :
    (String.ofList (c :: cs)).utf8ByteSize = c.utf8Size + (String.ofList cs).utf8ByteSize := by
  rw [String.ofList_cons, String.utf8ByteSize_append, String.utf8ByteSize_singleton]

theorem sum_segmentsOf (cs : List Char) :
    ((segmentsOf cs).map (·.utf8ByteSize + 1)).sum = (String.ofList cs).utf8ByteSize + 1 := by
  induction cs with
  | nil => rfl
  | cons c cs ih =>
    rw [utf8ByteSize_ofList_cons]
    by_cases hc : c = '/'
    · have hslash : '/'.utf8Size = 1 := by decide
      have hempty : "".utf8ByteSize = 0 := by decide
      rw [hc, segmentsOf_cons_slash, List.map_cons, List.sum_cons, ih, hslash, hempty]
      omega
    · obtain ⟨s, later, hcs, hcons⟩ := segmentsOf_cons hc cs
      rw [hcs, List.map_cons, List.sum_cons] at ih
      rw [hcons, List.map_cons, List.sum_cons, utf8ByteSize_ofList_cons]
      omega

/-- A path has the bytes of its segments and of the slashes between them. -/
theorem sum_segments (path : String) :
    ((segments path).map (·.utf8ByteSize + 1)).sum = path.utf8ByteSize + 1 := by
  rw [segments, sum_segmentsOf, String.ofList_toList]

theorem isAbsolute_cons {path : String} {c : Char} {cs : List Char} (h : path.toList = c :: cs) :
    isAbsolute path = (c == '/') := by
  simp [isAbsolute, h]

/-- Behind a path that does not end in a slash, the segments of a relative path follow. -/
theorem segments_join {dir path : String} {last : String}
    (hlast : (segments dir).getLast? = some last) (hne : last ≠ "")
    (hpath : isAbsolute path = false) :
    segments (join dir path) = segments dir ++ segments path ∧
      isAbsolute (join dir path) = isAbsolute dir := by
  have hend : dir.toList.getLast? ≠ some '/' := by
    intro hslash
    obtain ⟨as, has⟩ := List.getLast?_eq_some_iff.mp hslash
    have hsegments : segments dir = segmentsOf as ++ [""] := by
      rw [segments, has, segmentsOf_append_slash]
      rfl
    rw [hsegments, List.getLast?_concat] at hlast
    exact hne (Option.some.inj hlast).symm
  have hnonempty : dir.isEmpty = false := by
    rw [← Bool.not_eq_true, String.isEmpty_iff]
    rintro rfl
    exact hne (Option.some.inj hlast).symm
  have hjoin : (join dir path).toList = dir.toList ++ '/' :: path.toList := by
    rw [join, hpath, if_neg (by simp), if_neg (by simp [hnonempty, hend]), String.toList_append,
      String.toList_append, List.append_assoc]
    rfl
  refine ⟨by rw [segments, hjoin, segmentsOf_append_slash]; rfl, ?_⟩
  obtain ⟨c, cs, hdir⟩ := List.exists_cons_of_ne_nil
    (fun h => by simp [String.toList_eq_nil_iff.mp h] at hnonempty : dir.toList ≠ [])
  rw [isAbsolute_cons hdir, isAbsolute_cons (by rw [hjoin, hdir]; rfl)]

theorem parent_eq {path start name : String} {init : List String}
    (h : split path = (start, init ++ [name])) (hname : isVoid name = false) :
    parent path = start ++ String.intercalate "/" (trimSegments init) := by
  have hne : init ++ [name] ≠ [] := by simp
  rw [parent, parent?, h]
  simp only [trimSegments_concat hname]
  rw [Option.getD_some, List.dropLast_concat]

theorem exists_init_of_cons {first name : String} {cs : List Char} {init : List String}
    (h : first :: segmentsOf cs = init ++ [name]) :
    ∃ inner, init = first :: inner ∧ segmentsOf cs = inner ++ [name] := by
  cases init with
  | nil =>
    obtain ⟨-, hnil⟩ := List.cons.inj h
    exact absurd hnil (by simp [segmentsOf])
  | cons s inner =>
    obtain ⟨rfl, hrest⟩ := List.cons.inj h
    exact ⟨inner, rfl, hrest⟩

/-- The segments that a trimmed list is written with, behind a start that is no segment of
its own. -/
theorem segments_trimmed {ss : List String} (hslash : ∀ s ∈ ss, '/' ∉ s.toList)
    (hne : trimSegments ss ≠ []) :
    segments (String.intercalate "/" (trimSegments ss)) = trimSegments ss ∧
      ∃ last, (trimSegments ss).getLast? = some last ∧ last ≠ "" := by
  obtain ⟨voids, hvoids, -⟩ := exists_trimSegments ss
  refine ⟨segments_intercalate hne fun s hs => hslash s ?_, ?_⟩
  · rw [hvoids]
    exact List.mem_append_left _ hs
  · have hlast := List.getLast?_eq_some_getLast hne
    refine ⟨_, hlast, ?_⟩
    intro hempty
    have hvoid := isVoid_getLast_trimSegments hlast
    rw [hempty] at hvoid
    exact absurd hvoid (by decide)

/-- What is asked for beside the file of a path is put behind the segments `way`. -/
def PutsBehind (path : String) (way : List String) : Prop :=
  ∀ t, isAbsolute t = false →
    segments (join (parent path) t) = way ++ segments t ∧
      isAbsolute (join (parent path) t) = isAbsolute path

/-- The directory part of a path, if it does not end in a slash. -/
theorem putsBehind_parent {path last : String} {way : List String}
    (hway : segments (parent path) = way) (hlast : way.getLast? = some last) (hne : last ≠ "")
    (habsolute : isAbsolute (parent path) = isAbsolute path) : PutsBehind path way := by
  intro t ht
  rw [← habsolute, ← hway]
  rw [← hway] at hlast
  exact segments_join hlast hne ht

section

variable {path name : String} {inner : List String} {cs : List Char}

theorem putsBehind_of_slash (hpath : path.toList = '/' :: cs)
    (hinner : segmentsOf cs = inner ++ [name]) (hname : isVoid name = false) :
    PutsBehind path ("" :: trimSegments inner) := by
  have hparent : parent path = "/" ++ String.intercalate "/" (trimSegments inner) :=
    parent_eq (by simp [split, hpath, hinner]) hname
  by_cases hnil : trimSegments inner = []
  · -- the directory part is the root alone
    intro t ht
    have hjoin : (join (parent path) t).toList = '/' :: t.toList := by
      simp [hparent, hnil, join, ht]
    rw [segments, hjoin, segmentsOf_cons_slash, hnil, isAbsolute_cons hjoin,
      isAbsolute_cons hpath]
    exact ⟨rfl, rfl⟩
  · obtain ⟨hsegments, last, hlast, hne⟩ := segments_trimmed (fun s hs =>
      not_slash_of_mem_segmentsOf (hinner ▸ List.mem_append_left _ hs)) hnil
    have hlist : (parent path).toList =
        '/' :: (String.intercalate "/" (trimSegments inner)).toList := by
      rw [hparent, String.toList_append]
      rfl
    refine putsBehind_parent ?_ ?_ hne ?_
    · rw [segments, hlist, segmentsOf_cons_slash, ← segments, hsegments]
    · rw [List.getLast?_cons, hlast, Option.getD_some]
    · rw [isAbsolute_cons hlist, isAbsolute_cons hpath]

theorem putsBehind_of_dot (hpath : path.toList = '.' :: '/' :: cs)
    (hinner : segmentsOf cs = inner ++ [name]) (hname : isVoid name = false) :
    ∃ way voids, "." :: inner = way ++ voids ∧ (∀ s ∈ voids, isVoid s = true) ∧
      PutsBehind path way := by
  have hparent : parent path = "." ++ String.intercalate "/" (trimSegments ("" :: inner)) :=
    parent_eq (by simp [split, hpath, segmentsOf_cons_slash, hinner]) hname
  obtain ⟨voids, hvoids, hall⟩ := exists_trimSegments ("" :: inner)
  cases htrim : trimSegments ("" :: inner) with
  | nil =>
    -- the directory part is the dot alone
    rw [htrim, List.nil_append] at hvoids
    rw [htrim] at hparent
    refine ⟨["."], inner, rfl, fun s hs => hall s (hvoids ▸ List.mem_cons_of_mem _ hs), ?_⟩
    refine @putsBehind_parent _ "." _ ?_ rfl (by decide) ?_
    · rw [hparent]
      decide
    · rw [isAbsolute_cons hpath, hparent]
      decide
  | cons first rest =>
    rw [htrim, List.cons_append] at hvoids
    obtain ⟨rfl, hrest⟩ := List.cons.inj hvoids
    have hslash : ∀ s ∈ "" :: inner, '/' ∉ s.toList := by
      refine List.forall_mem_cons.mpr ⟨by simp, fun s hs => ?_⟩
      exact not_slash_of_mem_segmentsOf (hinner ▸ List.mem_append_left _ hs)
    obtain ⟨hsegments, last, hlast, hne⟩ := segments_trimmed hslash (by simp [htrim])
    rw [htrim] at hsegments hlast
    have hlist : (parent path).toList =
        '.' :: (String.intercalate "/" ("" :: rest)).toList := by
      rw [hparent, htrim, String.toList_append]
      rfl
    refine ⟨"." :: rest, voids, by rw [hrest]; rfl, hall, putsBehind_parent ?_ ?_ hne ?_⟩
    · obtain ⟨s, later, hs, hcons⟩ := segmentsOf_cons (c := '.') (by decide)
        (String.intercalate "/" ("" :: rest)).toList
      rw [segments] at hsegments
      rw [hsegments] at hs
      obtain ⟨hempty, rfl⟩ := List.cons.inj hs
      have hnil : s = [] := by simpa using hempty.symm
      rw [segments, hlist, hcons, hnil]
    · cases rest with
      | nil => exact absurd (Option.some.inj hlast).symm hne
      | cons second rest => exact hlast
    · rw [isAbsolute_cons hlist, isAbsolute_cons hpath]

theorem head?_segments_eq_empty (h : (segments path).head? = some "") :
    path.toList = [] ∨ ∃ ds, path.toList = '/' :: ds := by
  rw [segments] at h
  cases hpath : path.toList with
  | nil => exact Or.inl rfl
  | cons c ds =>
    by_cases hc : c = '/'
    · exact Or.inr ⟨ds, by rw [hc]⟩
    · obtain ⟨s, later, -, hcons⟩ := segmentsOf_cons hc ds
      rw [hpath, hcons] at h
      simp at h

theorem putsBehind_of_plain (hslash : ∀ ds, path.toList ≠ '/' :: ds)
    (hdot : ∀ ds, path.toList ≠ '.' :: '/' :: ds) (hinner : segments path = inner ++ [name])
    (hname : isVoid name = false) : PutsBehind path (trimSegments inner) := by
  have hlast : (segments path).getLast? = some name := by rw [hinner, List.getLast?_concat]
  have hsplit : split path = ("", inner ++ [name]) := by
    unfold split
    split
    · rename_i ds hds
      exact absurd hds (hslash ds)
    · rename_i hds
      rw [segments, hds] at hlast
      rw [← Option.some.inj hlast] at hname
      exact absurd hname (by decide)
    · rename_i ds hds
      exact absurd hds (hdot ds)
    · rw [← hinner]
      rfl
  have hparent : parent path = "" ++ String.intercalate "/" (trimSegments inner) :=
    parent_eq hsplit hname
  rw [String.empty_append] at hparent
  have habsolute : isAbsolute path = false := by
    rw [isAbsolute, beq_eq_false_iff_ne]
    intro hhead
    obtain ⟨ds, hds⟩ := List.head?_eq_some_iff.mp hhead
    exact hslash ds hds
  by_cases hnil : trimSegments inner = []
  · intro t ht
    have hjoin : join (parent path) t = t := by simp [hparent, hnil, join, ht]
    rw [hjoin, hnil, habsolute, ht]
    exact ⟨rfl, rfl⟩
  · have hmem : ∀ s ∈ inner, s ∈ segmentsOf path.toList := by
      intro s hs
      rw [← segments, hinner]
      exact List.mem_append_left _ hs
    obtain ⟨hsegments, last, hlast', hne⟩ :=
      segments_trimmed (fun s hs => not_slash_of_mem_segmentsOf (hmem s hs)) hnil
    refine putsBehind_parent (by rw [hparent, hsegments]) hlast' hne ?_
    -- a directory part that started with a slash would make the path start with one
    rw [habsolute, isAbsolute, beq_eq_false_iff_ne]
    intro hhead
    obtain ⟨ds, hds⟩ := List.head?_eq_some_iff.mp hhead
    obtain ⟨voids, hvoids, -⟩ := exists_trimSegments inner
    have hfirst : (trimSegments inner).head? = some "" := by
      rw [← hsegments, ← hparent, segments, hds, segmentsOf_cons_slash]
      rfl
    have hfirst' : (segments path).head? = some "" := by
      rw [hinner, hvoids, List.append_assoc, List.head?_append, hfirst]
      rfl
    rcases head?_segments_eq_empty hfirst' with hempty | ⟨es, hes⟩
    · rw [segments, hempty] at hlast
      rw [← Option.some.inj hlast] at hname
      exact absurd hname (by decide)
    · exact hslash es hes

/-- The segments in front of the last one are, but for some that name nothing, those that a
path beside it is put behind. -/
theorem exists_way_of_parent (h : segments path = inner ++ [name]) (hname : isVoid name = false) :
    ∃ way voids, inner = way ++ voids ∧ (∀ s ∈ voids, isVoid s = true) ∧ PutsBehind path way := by
  by_cases hroot : ∃ ds, path.toList = '/' :: ds
  · obtain ⟨ds, hpath⟩ := hroot
    rw [segments, hpath, segmentsOf_cons_slash] at h
    obtain ⟨deeper, rfl, hdeeper⟩ := exists_init_of_cons h
    obtain ⟨voids, hvoids, hall⟩ := exists_trimSegments deeper
    exact ⟨"" :: trimSegments deeper, voids, by rw [List.cons_append, ← hvoids], hall,
      putsBehind_of_slash hpath hdeeper hname⟩
  · by_cases hdot : ∃ ds, path.toList = '.' :: '/' :: ds
    · obtain ⟨ds, hpath⟩ := hdot
      have hhead : segmentsOf ('.' :: '/' :: ds) = "." :: segmentsOf ds :=
        segmentsOf_append_slash ['.'] ds
      rw [segments, hpath, hhead] at h
      obtain ⟨deeper, rfl, hdeeper⟩ := exists_init_of_cons h
      exact putsBehind_of_dot hpath hdeeper hname
    · obtain ⟨voids, hvoids, hall⟩ := exists_trimSegments inner
      exact ⟨trimSegments inner, voids, hvoids, hall,
        putsBehind_of_plain (fun ds hds => hroot ⟨ds, hds⟩) (fun ds hds => hdot ⟨ds, hds⟩) h
          hname⟩

end

/-! Characters -/

theorem mem_intercalate {ss : List String} {c : Char}
    (h : c ∈ (String.intercalate "/" ss).toList) : c = '/' ∨ ∃ s ∈ ss, c ∈ s.toList := by
  induction ss with
  | nil => simp at h
  | cons s ss ih =>
    cases ss with
    | nil =>
      rw [String.intercalate_singleton] at h
      exact Or.inr ⟨s, List.mem_singleton_self s, h⟩
    | cons u us =>
      rw [String.intercalate_cons_cons, String.toList_append, String.toList_append] at h
      rcases List.mem_append.mp h with h | h
      · rcases List.mem_append.mp h with h | h
        · exact Or.inr ⟨s, List.mem_cons_self, h⟩
        · exact Or.inl (List.mem_singleton.mp h)
      · rcases ih h with hc | ⟨v, hv, hc⟩
        · exact Or.inl hc
        · exact Or.inr ⟨v, List.mem_cons_of_mem _ hv, hc⟩

theorem mem_of_mem_split {path s : String} {c : Char} (hs : s ∈ (split path).2)
    (hc : c ∈ s.toList) : c ∈ path.toList := by
  unfold split at hs
  split at hs <;> simp only at hs
  · rename_i cs hpath
    rw [hpath]
    exact List.mem_cons_of_mem _ (mem_of_mem_segmentsOf hs hc)
  · exact absurd hs (by simp)
  · rename_i cs hpath
    rw [hpath]
    exact List.mem_cons_of_mem _ (mem_of_mem_segmentsOf hs hc)
  · exact mem_of_mem_segmentsOf hs hc

theorem mem_start_of_split {path : String} {c : Char} (hc : c ∈ (split path).1.toList) :
    c = '/' ∨ c = '.' := by
  unfold split at hc
  split at hc
  · exact Or.inl (by simpa using hc)
  · exact Or.inr (by simpa using hc)
  · exact Or.inr (by simpa using hc)
  · exact absurd hc (by simp)

/-- The directory part of a path has only characters of the path. -/
theorem mem_of_mem_parent {path : String} {c : Char} (hc : c ∈ (parent path).toList) :
    c ∈ path.toList ∨ c = '/' ∨ c = '.' := by
  have hsub : ∀ {ss : List String} {s : String}, s ∈ trimSegments ss → s ∈ ss := by
    intro ss s hs
    obtain ⟨voids, hvoids, -⟩ := exists_trimSegments ss
    rw [hvoids]
    exact List.mem_append_left _ hs
  unfold parent parent? at hc
  simp only at hc
  split at hc
  · split at hc <;> exact absurd hc (by simp)
  · rw [Option.getD_some, String.toList_append] at hc
    rcases List.mem_append.mp hc with hc | hc
    · exact Or.inr (mem_start_of_split hc)
    · rcases mem_intercalate hc with hc | ⟨s, hs, hc⟩
      · exact Or.inr (Or.inl hc)
      · exact Or.inl (mem_of_mem_split (hsub ((List.dropLast_sublist _).subset (hsub hs))) hc)

/-- A joined path has the characters of its parts, and perhaps a slash between them. -/
theorem mem_join {dir path : String} {c : Char} (hc : c ∈ (join dir path).toList) :
    c ∈ dir.toList ∨ c = '/' ∨ c ∈ path.toList := by
  unfold join at hc
  split at hc
  · exact Or.inr (Or.inr hc)
  · split at hc
    · rw [String.toList_append] at hc
      exact (List.mem_append.mp hc).imp_right Or.inr
    · rw [String.toList_append, String.toList_append, List.append_assoc] at hc
      exact (List.mem_append.mp hc).imp_right List.mem_cons.mp

theorem mem_join_of_mem {dir path : String} {c : Char} (hc : c ∈ path.toList) :
    c ∈ (join dir path).toList := by
  unfold join
  split
  · exact hc
  · split <;> simp [hc]

end Path

namespace Disk

/-- Segments that name nothing lead nowhere else. -/
theorem eq_of_walk_voids {disk : Disk} {loc dir : Location} {voids : List String}
    (hvoids : ∀ s ∈ voids, Path.isVoid s = true) (h : disk.walk loc voids = .ok dir) :
    dir = loc := by
  induction voids with
  | nil => exact (Except.ok.inj h).symm
  | cons s voids ih =>
    obtain ⟨hs, hvoids⟩ := List.forall_mem_cons.mp hvoids
    obtain ⟨-, next, hnext, hrest⟩ := walk_cons_eq_ok_iff.mp h
    cases hnext with
    | stay _ => exact ih hvoids hrest
    | up hup => simp [hup, Path.isVoid] at hs
    | down hname _ => simp [hname.not_void] at hs

/-- A way that ends in segments that name nothing leads as far without them. -/
theorem walk_of_append_voids {disk : Disk} {loc dir : Location} {ss voids : List String}
    (hvoids : ∀ s ∈ voids, Path.isVoid s = true) (h : disk.walk loc (ss ++ voids) = .ok dir) :
    disk.walk loc ss = .ok dir := by
  obtain ⟨l, hss, hrest⟩ := walk_append_eq_ok_iff.mp h
  rwa [eq_of_walk_voids hvoids hrest]

def holdsFile (disk : Disk) (loc : Location) : Bool :=
  match disk.get? loc with
  | some (.file _) => true
  | _ => false

def fileAt? (disk : Disk) (path : String) : Option Location :=
  (disk.resolve path).toOption.filter disk.holdsFile

/-- The file that a path leads to from a directory, where no limit on the length of paths
applies to a relative one. -/
def fileFrom? (disk : Disk) (dir : Location) (path : String) : Option Location :=
  if Path.isAbsolute path then disk.fileAt? path
  else if path.toList.contains '\x00' then none
  else (disk.walk dir (Path.segments path)).toOption.filter disk.holdsFile

theorem holdsFile_iff {disk : Disk} {loc : Location} :
    disk.holdsFile loc = true ↔ ∃ content, disk.get? loc = some (.file content) := by
  unfold holdsFile
  cases hget : disk.get? loc with
  | none => simp
  | some entry => cases entry <;> simp

theorem toOption_eq_some_iff {x : Except FileError Location} {loc : Location} :
    x.toOption = some loc ↔ x = .ok loc := by
  cases x <;> simp [Except.toOption]

theorem fileAt?_eq_some_iff {disk : Disk} {path : String} {loc : Location} :
    disk.fileAt? path = some loc ↔ disk.resolve path = .ok loc ∧ disk.holdsFile loc = true := by
  rw [fileAt?, Option.filter_eq_some_iff, toOption_eq_some_iff]

theorem isFile_eq (disk : Disk) (path : String) :
    disk.isFile path = (disk.fileAt? path).isSome := by
  unfold isFile find fileAt? holdsFile
  cases hresolve : disk.resolve path with
  | error e => simp [Except.bind, Except.toOption]
  | ok loc =>
    cases hget : disk.get? loc with
    | none => simp [Except.bind, Except.toOption, hget]
    | some entry => cases entry <;> simp [Except.bind, Except.toOption, hget]

theorem identity_of_fileAt? {disk : Disk} {path : String} {loc : Location}
    (h : disk.fileAt? path = some loc) : disk.identity path = .known loc := by
  rw [identity, (fileAt?_eq_some_iff.mp h).1]

/-- A path to a file names it. -/
theorem exists_names_of_fileAt? {disk : Disk} {path : String} {loc : Location}
    (h : disk.fileAt? path = some loc) :
    ∃ dir name, Names disk path dir name ∧ loc = dir ++ [name] := by
  obtain ⟨hresolve, hfile⟩ := fileAt?_eq_some_iff.mp h
  obtain ⟨content, hget⟩ := holdsFile_iff.mp hfile
  rcases resolve_cases hresolve with hdir | hplace
  · exact absurd (hdir.symm.trans hget) (by simp)
  · exact place?_eq_some_iff.mp hplace

theorem checkPath_eq_ok_iff {path : String} :
    checkPath path = .ok () ↔ '\x00' ∉ path.toList ∧ path ≠ "" ∧
      path.utf8ByteSize ≤ maxPathBytes := by
  unfold checkPath
  split
  · rename_i hnul
    simpa using fun h => absurd (by simpa using hnul) h
  · rename_i hnul
    split
    · rename_i hempty
      simp [String.isEmpty_iff.mp hempty]
    · rename_i hempty
      split
      · rename_i hlong
        simpa using fun _ _ => hlong
      · rename_i hlong
        simp only [List.contains_eq_mem, decide_eq_true_eq] at hnul
        simp only [String.isEmpty_iff] at hempty
        exact iff_of_true rfl ⟨hnul, hempty, Nat.le_of_not_lt hlong⟩

theorem holdsFile_directory {disk : Disk} {loc : Location}
    (h : disk.get? loc = some .directory) : disk.holdsFile loc = false := by
  simp [holdsFile, h]

/-- Where a relative path leads from beside an entry, whatever way leads to the entry: nothing
of the way matters but its length. -/
theorem resolve_join_parent_iff {disk : Disk} {path name t : String} {dir loc : Location}
    (h : Names disk path dir name) (ht : Path.isAbsolute t = false)
    (hshort : (Path.join (Path.parent path) t).utf8ByteSize ≤ maxPathBytes)
    (hfile : disk.holdsFile loc = true) :
    disk.resolve (Path.join (Path.parent path) t) = .ok loc ↔
      '\x00' ∉ t.toList ∧ disk.walk dir (Path.segments t) = .ok loc := by
  obtain ⟨way, voids, hway, hvoids, hputs⟩ :=
    Path.exists_way_of_parent (Path.segments_eq h.last) h.proper.not_void
  obtain ⟨hsegments, habsolute⟩ := hputs t ht
  have hdir : disk.walk (Location.base path) way = .ok dir :=
    walk_of_append_voids hvoids (hway ▸ h.way)
  have hbase : Location.base (Path.join (Path.parent path) t) = Location.base path := by
    rw [Location.base, habsolute]
    rfl
  have hwalk : disk.walk (Location.base (Path.join (Path.parent path) t))
      (Path.segments (Path.join (Path.parent path) t)) = .ok loc ↔
        disk.walk dir (Path.segments t) = .ok loc := by
    rw [hbase, hsegments, walk_append_eq_ok_iff, hdir]
    simp
  obtain ⟨hnul, -, -⟩ := checkPath_eq_ok_iff.mp h.check
  rw [resolve, except_bind_eq_ok]
  constructor
  · rintro ⟨⟨⟩, hcheck, hres⟩
    obtain ⟨hfree, -, -⟩ := checkPath_eq_ok_iff.mp hcheck
    exact ⟨fun hmem => hfree (Path.mem_join_of_mem hmem), hwalk.mp hres⟩
  · rintro ⟨hfree, hres⟩
    refine ⟨(), checkPath_eq_ok_iff.mpr ⟨?_, ?_, hshort⟩, hwalk.mpr hres⟩
    · intro hmem
      rcases Path.mem_join hmem with hmem | hmem | hmem
      · rcases Path.mem_of_mem_parent hmem with hmem | hmem | hmem
        · exact hnul hmem
        · exact absurd hmem (by decide)
        · exact absurd hmem (by decide)
      · exact absurd hmem (by decide)
      · exact hfree hmem
    · -- without a text of its own, the path would lead to the directory
      intro hempty
      have hnone : t.toList = [] := by
        refine List.eq_nil_iff_forall_not_mem.mpr fun c hc => ?_
        have hmem : c ∈ (Path.join (Path.parent path) t).toList := Path.mem_join_of_mem hc
        rw [hempty] at hmem
        exact absurd hmem (by simp)
      rw [Path.segments, hnone] at hres
      have hloc : loc = dir := eq_of_walk_voids (by decide) hres
      rw [hloc, holdsFile_directory h.directory] at hfile
      exact absurd hfile (by simp)

/-- The file that is found beside an entry does not depend on the spelling of the entry's path,
as long as what is asked for is not too long. -/
theorem fileAt?_join_parent {disk : Disk} {path name t : String} {dir : Location}
    (h : Names disk path dir name)
    (hshort : Path.isAbsolute t = false →
      (Path.join (Path.parent path) t).utf8ByteSize ≤ maxPathBytes) :
    disk.fileAt? (Path.join (Path.parent path) t) = disk.fileFrom? dir t := by
  unfold fileFrom?
  split
  · rename_i ht
    rw [Path.join, if_pos ht]
  · rename_i ht
    have ht : Path.isAbsolute t = false := by simpa using ht
    refine Option.ext fun loc => ?_
    rw [fileAt?_eq_some_iff]
    split
    · rename_i hnul
      refine iff_of_false ?_ (by simp)
      rintro ⟨hres, hfile⟩
      have hfree := ((resolve_join_parent_iff h ht (hshort ht) hfile).mp hres).1
      exact hfree (by simpa using hnul)
    · rename_i hnul
      rw [Option.filter_eq_some_iff, toOption_eq_some_iff]
      refine and_congr_left fun hfile => ?_
      rw [resolve_join_parent_iff h ht (hshort ht) hfile]
      exact and_iff_right (by simpa using hnul)

end Disk
end Encapsulate
