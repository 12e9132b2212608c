import HackToolchain.Files.Tree

/-!
# What writing a file changes

A text that is written stands at the place that the path leads to, and nothing changes anywhere else
(`written_of_write`). Every path that leads to a directory or to another file still leads there
(`Written.spot_eq`), and writing the same text again changes nothing at all (`write_again`).
-/

set_option autoImplicit false

namespace HackToolchain

/-! ## Trees -/

namespace FileTree

section

variable {t : FileTree} {place q : Place} {node : Node}

theorem get?_eq_find? (t : FileTree) (h : q ≠ []) :
    t.get? q = (t.nodes.find? fun n => n.1 = q).map (·.2) := by
  rw [get?, if_neg (by simpa using h)]

/-- A place where nothing stands is the place of no node. -/
theorem ne_of_get?_eq_none (h : t.get? place = none) : ∀ n ∈ t.nodes, n.1 ≠ place := by
  have hne : place ≠ [] := by
    rintro rfl
    cases h
  rw [get?_eq_find? t hne, Option.map_eq_none_iff, List.find?_eq_none] at h
  simpa using h

/-- A node, or the one that takes its place. -/
def replaceAt (place : Place) (node : Node) (n : Place × Node) : Place × Node :=
  if n.1 = place then (place, node) else n

theorem replaceAt_fst (n : Place × Node) : (replaceAt place node n).1 = n.1 := by
  unfold replaceAt
  split
  · next h => exact h.symm
  · rfl

theorem replaceAt_of_eq {n : Place × Node} (h : n.1 = place) :
    replaceAt place node n = (place, node) := if_pos h

theorem replaceAt_of_ne {n : Place × Node} (h : n.1 ≠ place) : replaceAt place node n = n :=
  if_neg h

theorem nodes_put_of_none (h : t.get? place = none) :
    (t.put place node).nodes = t.nodes ++ [(place, node)] := by
  rw [put, h]
  rfl

theorem nodes_put_of_some {old : Node} (h : t.get? place = some old) :
    (t.put place node).nodes = t.nodes.map (replaceAt place node) := by
  rw [put, h]
  rfl

theorem get?_put_self (t : FileTree) (h : place ≠ []) :
    (t.put place node).get? place = some node := by
  rw [get?_eq_find? _ h]
  cases hget : t.get? place with
  | none =>
    have hfind : t.nodes.find? (fun n => n.1 = place) = none :=
      List.find?_eq_none.2 (by simpa using ne_of_get?_eq_none hget)
    rw [nodes_put_of_none hget, List.find?_append, hfind]
    simp
  | some old =>
    rw [nodes_put_of_some hget, List.find?_map]
    rw [get?_eq_find? t h] at hget
    obtain ⟨n, hn, -⟩ := Option.map_eq_some_iff.1 hget
    have hplace : n.1 = place := by simpa using List.find?_some hn
    simp only [Function.comp_def, replaceAt_fst, hn, Option.map_some, replaceAt_of_eq hplace]

/-- Nothing changes at the other places. -/
theorem get?_put_of_ne (t : FileTree) (h : q ≠ place) : (t.put place node).get? q = t.get? q := by
  by_cases hq : q = []
  · rw [hq, get?, get?]
    rfl
  rw [get?_eq_find? _ hq, get?_eq_find? _ hq]
  cases hget : t.get? place with
  | none =>
    rw [nodes_put_of_none hget, List.find?_append, List.find?_singleton]
    simp [Ne.symm h]
  | some old =>
    rw [nodes_put_of_some hget, List.find?_map]
    simp only [Function.comp_def, replaceAt_fst]
    cases hn : t.nodes.find? fun n => n.1 = q with
    | none => rfl
    | some n =>
      have hplace : n.1 = q := by simpa using List.find?_some hn
      rw [Option.map_some, replaceAt_of_ne (hplace ▸ h)]

/-- The nodes of a tree that something was put into are that one and old ones from elsewhere. -/
theorem of_mem_nodes_put {n : Place × Node} (h : n ∈ (t.put place node).nodes) :
    n = (place, node) ∨ n ∈ t.nodes ∧ n.1 ≠ place := by
  cases hget : t.get? place with
  | none =>
    rw [nodes_put_of_none hget] at h
    rcases List.mem_append.1 h with h | h
    · exact .inr ⟨h, ne_of_get?_eq_none hget n h⟩
    · exact .inl (List.mem_singleton.1 h)
  | some old =>
    rw [nodes_put_of_some hget] at h
    obtain ⟨m, hm, rfl⟩ := List.mem_map.1 h
    by_cases hplace : m.1 = place
    · exact .inl (replaceAt_of_eq hplace)
    · rw [replaceAt_of_ne hplace]
      exact .inr ⟨hm, hplace⟩

/-- Putting the same node again changes nothing. -/
theorem put_put (t : FileTree) (h : place ≠ []) :
    (t.put place node).put place node = t.put place node := by
  have hsame : ∀ n ∈ (t.put place node).nodes, replaceAt place node n = n := by
    intro n hn
    rcases of_mem_nodes_put hn with rfl | ⟨-, hplace⟩
    · exact replaceAt_of_eq rfl
    · exact replaceAt_of_ne hplace
  have hnodes : ((t.put place node).put place node).nodes =
      (t.put place node).nodes.map (replaceAt place node) :=
    nodes_put_of_some (get?_put_self t h)
  rw [List.map_congr_left hsame, List.map_id'] at hnodes
  exact congrArg FileTree.mk hnodes

end

/-! ## Following names -/

section

variable {t t' : FileTree} {start d place q : Place} {names : List String} {name : String}
  {content : ByteArray}

namespace Spot

/-- The place of a file or of nothing, with what is there. -/
def target? : Spot → Option (Place × Option Node)
  | .vacant place => some (place, none)
  | .file place content => some (place, some (.file content))
  | _ => none

/-- There is a file, or one could be put there. -/
def Writable (s : Spot) (place : Place) : Prop :=
  s = .vacant place ∨ ∃ content, s = .file place content

theorem Writable.exists_target? {s : Spot} (h : s.Writable place) :
    ∃ old, s.target? = some (place, old) ∧ old ≠ some .directory := by
  rcases h with rfl | ⟨content, rfl⟩
  · exact ⟨none, rfl, nofun⟩
  · exact ⟨_, rfl, nofun⟩

end Spot

/-- Where names lead to a file or to nothing, it is there, under the last of the names. -/
theorem of_follow {old : Option Node} (h : (t.follow start names).target? = some (place, old)) :
    place ≠ [] ∧ place.getLast? = names.getLast? ∧ t.get? place = old := by
  induction names generalizing start with
  | nil => cases h
  | cons name rest ih =>
    have hrest {p : Place} (hp : (t.follow p rest).target? = some (place, old)) :
        place ≠ [] ∧ place.getLast? = (name :: rest).getLast? ∧ t.get? place = old := by
      cases rest with
      | nil => cases hp
      | cons next rest =>
        rw [List.getLast?_cons_cons]
        exact ih hp
    rw [follow] at h
    split at h
    · exact hrest h
    split at h
    · cases h
    split at h
    · exact hrest h
    · next hget =>
      cases rest with
      | nil =>
        obtain ⟨rfl, rfl⟩ := Prod.mk.inj (Option.some.inj h)
        exact ⟨by simp, by simp, hget⟩
      | cons next rest => cases h
    · next hget =>
      cases rest with
      | nil =>
        obtain ⟨rfl, rfl⟩ := Prod.mk.inj (Option.some.inj h)
        exact ⟨by simp, by simp, hget⟩
      | cons next rest => cases h

/-- Where names lead in a tree that has a file where another has none or a different one: to the
same, to that file, or nowhere behind it. -/
theorem follow_cases (hsame : ∀ q, q ≠ place → t'.get? q = t.get? q)
    (hold : t.get? place ≠ some .directory) (hnew : t'.get? place = some (.file content))
    (start : Place) (names : List String) :
    t'.follow start names = t.follow start names ∨
      (t.follow start names).Writable place ∧ t'.follow start names = .file place content ∨
      (t.follow start names = .missing ∨ t.follow start names = .blocked) := by
  induction names generalizing start with
  | nil => exact .inl rfl
  | cons name rest ih =>
    rw [follow, follow]
    split
    · exact ih _
    split
    · exact .inl rfl
    by_cases hq : start ++ [name] = place
    · rw [hq, hnew]
      cases hget : t.get? place with
      | none =>
        cases rest with
        | nil => exact .inr (.inl ⟨.inl rfl, rfl⟩)
        | cons next rest => exact .inr (.inr (.inl rfl))
      | some old =>
        cases old with
        | directory => exact absurd hget hold
        | file c =>
          cases rest with
          | nil => exact .inr (.inl ⟨.inr ⟨c, rfl⟩, rfl⟩)
          | cons next rest => exact .inr (.inr (.inr rfl))
    · rw [hsame _ hq]
      split
      · exact ih _
      · exact .inl rfl
      · exact .inl rfl

/-- There is no directory at a place that names lead to. -/
theorem ne_directory_of_follow (h : (t.follow start names).Writable place) :
    t.get? place ≠ some .directory := by
  obtain ⟨old, htarget, hold⟩ := h.exists_target?
  rw [(of_follow htarget).2.2]
  exact hold

/-- Names that led to where a file is now lead to that file. -/
theorem follow_of_writable (hsame : ∀ q, q ≠ place → t'.get? q = t.get? q)
    (hnew : t'.get? place = some (.file content)) (h : (t.follow start names).Writable place) :
    t'.follow start names = .file place content := by
  rcases follow_cases hsame (ne_directory_of_follow h) hnew start names with
    heq | ⟨-, hfile⟩ | hs | hs
  · rw [← heq] at h
    rcases h with h | ⟨c, h⟩
    · have hnone := (of_follow (congrArg Spot.target? h)).2.2
      rw [hnew] at hnone
      cases hnone
    · have hsome := (of_follow (congrArg Spot.target? h)).2.2
      rw [hnew] at hsome
      rw [h, Node.file.inj (Option.some.inj hsome)]
  · exact hfile
  · rw [hs] at h
    rcases h with h | ⟨c, h⟩ <;> cases h
  · rw [hs] at h
    rcases h with h | ⟨c, h⟩ <;> cases h

end

end FileTree

/-! ## Workspaces -/

namespace Workspace

open FileTree

section

variable {w w' : Workspace} {p q : Path} {text : String} {place : Place}

/-- Whether a text is too long or has a null character is the same in every workspace. -/
theorem spot_eq_follow (w : Workspace) (p : Path) :
    (spotOfText? p.render = none ∧
      w.spot p = w.tree.follow (if p.isAbsolute then [] else w.current) p.names) ∨
    spotOfText? p.render = some (w.spot p) ∧ (w.spot p = .nowhere ∨ w.spot p = .tooLong) := by
  rw [spot]
  cases h : spotOfText? p.render with
  | none => exact .inl ⟨rfl, rfl⟩
  | some s =>
    refine .inr ⟨rfl, ?_⟩
    rw [spotOfText?] at h
    split at h
    · exact .inl (Option.some.inj h).symm
    split at h
    · exact .inr (Option.some.inj h).symm
    · cases h

theorem spot_eq_follow_of_writable (h : (w.spot p).Writable place) :
    spotOfText? p.render = none ∧
      w.spot p = w.tree.follow (if p.isAbsolute then [] else w.current) p.names := by
  rcases spot_eq_follow w p with hfollow | ⟨-, hs | hs⟩
  · exact hfollow
  · rw [hs] at h
    rcases h with h | ⟨content, h⟩ <;> cases h
  · rw [hs] at h
    rcases h with h | ⟨content, h⟩ <;> cases h

/-- What a path leads to has the last name of the path. -/
theorem getLast?_of_spot (h : (w.spot p).Writable place) :
    place ≠ [] ∧ place.getLast? = p.names.getLast? := by
  obtain ⟨old, htarget, -⟩ := h.exists_target?
  rw [(spot_eq_follow_of_writable h).2] at htarget
  obtain ⟨hne, hlast, -⟩ := of_follow htarget
  exact ⟨hne, hlast⟩

/-- A workspace after a text was written to the file at a path. -/
structure Written (w : Workspace) (p : Path) (text : String) (place : Place) (w' : Workspace) :
    Prop where
  /-- There was a file at the path, or nothing. -/
  before : (w.spot p).Writable place
  after : w'.spot p = .file place text.toUTF8
  others : ∀ q, q ≠ place → w'.tree.get? q = w.tree.get? q
  current : w'.current = w.current

/-- A text is written at the one place that the path leads to. -/
theorem exists_put_of_write (h : w.write p text = .ok w') :
    ∃ place, (w.spot p).Writable place ∧
      w' = { w with tree := w.tree.put place (.file text.toUTF8) } := by
  rw [write] at h
  split at h
  · next place content hspot => exact ⟨place, .inr ⟨content, hspot⟩, (Except.ok.inj h).symm⟩
  · next place hspot => exact ⟨place, .inl hspot, (Except.ok.inj h).symm⟩
  all_goals cases h

theorem written_of_write (h : w.write p text = .ok w') :
    ∃ place, Written w p text place w' ∧ w'.tree = w.tree.put place (.file text.toUTF8) := by
  obtain ⟨place, hspot, rfl⟩ := exists_put_of_write h
  obtain ⟨hne, -⟩ := getLast?_of_spot hspot
  obtain ⟨htext, hfollow⟩ := spot_eq_follow_of_writable hspot
  have hothers : ∀ q, q ≠ place →
      (w.tree.put place (.file text.toUTF8)).get? q = w.tree.get? q :=
    fun q hq => get?_put_of_ne w.tree hq
  refine ⟨place, ⟨hspot, ?_, hothers, rfl⟩, rfl⟩
  rw [hfollow] at hspot
  rw [spot, htext]
  exact follow_of_writable hothers (get?_put_self w.tree hne) hspot

theorem Written.get?_eq (h : Written w p text place w') :
    w'.tree.get? place = some (.file text.toUTF8) := by
  have hafter : (w'.spot p).Writable place := .inr ⟨_, h.after⟩
  have hfollow := (spot_eq_follow_of_writable hafter).2
  exact (of_follow (congrArg Spot.target? (hfollow.symm.trans h.after))).2.2

/-- Every path that led to the place written leads to the file there. -/
theorem Written.spot_of_writable (h : Written w p text place w') (hq : (w.spot q).Writable place) :
    w'.spot q = .file place text.toUTF8 := by
  obtain ⟨htext, hfollow⟩ := spot_eq_follow_of_writable hq
  rw [hfollow] at hq
  rw [spot, htext, h.current]
  exact follow_of_writable h.others h.get?_eq hq

/-- A path to a directory or to another file still leads there. -/
theorem Written.spot_eq (h : Written w p text place w')
    (hq : (∃ d, w.spot q = .directory d) ∨ ∃ r content, r ≠ place ∧ w.spot q = .file r content) :
    w'.spot q = w.spot q := by
  have hold : w.tree.get? place ≠ some .directory :=
    ne_directory_of_follow ((spot_eq_follow_of_writable h.before).2 ▸ h.before)
  have hnew := h.get?_eq
  rcases spot_eq_follow w q with ⟨htext, hfollow⟩ | ⟨-, hs | hs⟩
  · rw [hfollow] at hq ⊢
    rw [spot, htext, h.current]
    rcases follow_cases h.others hold hnew (if q.isAbsolute then [] else w.current) q.names with
      heq | ⟨hs, -⟩ | hs
    · exact heq
    · obtain ⟨d, hd⟩ | ⟨r, content, hr, hd⟩ := hq
      · rw [hd] at hs
        rcases hs with hs | ⟨c, hs⟩ <;> cases hs
      · rw [hd] at hs
        rcases hs with hs | ⟨c, hs⟩
        · cases hs
        · exact absurd (Spot.file.inj hs).1 hr
    · obtain ⟨d, hd⟩ | ⟨r, content, hr, hd⟩ := hq <;> rw [hd] at hs <;>
        rcases hs with hs | hs <;> cases hs
  · rw [hs] at hq
    obtain ⟨d, hd⟩ | ⟨r, content, hr, hd⟩ := hq <;> cases hd
  · rw [hs] at hq
    obtain ⟨d, hd⟩ | ⟨r, content, hr, hd⟩ := hq <;> cases hd

/-- Writing the same again changes nothing. -/
theorem write_again (h : w.write p text = .ok w') : w'.write p text = .ok w' := by
  obtain ⟨place, hwritten, htree⟩ := written_of_write h
  have hput : w'.tree.put place (.file text.toUTF8) = w'.tree := by
    rw [htree]
    exact put_put w.tree (getLast?_of_spot hwritten.before).1
  rw [write, hwritten.after]
  simp only [hput]

end

end Workspace

end HackToolchain
