import Mathlib.Logic.Basic
import ProviderMigration.Storage.Disk

/-!
# Routes

A successful search for a place takes one of a few kinds of steps at a time. This module
says once what they are, as a relation in which a link on the way is one step more, so
that everything else about paths goes by induction on the route that a search has taken.
-/

namespace ProviderMigration.Storage

namespace Disk

/-- A step that leads to an entry of a directory. -/
structure IsInward (step : String) : Prop where
  dot : step ≠ "."
  dots : step ≠ ".."
  short : step.utf8ByteSize ≤ maxNameSize

/-- The steps lead from one place to another, through no more than the given number of
links. -/
inductive Route (disk : Disk) (followLast : Bool) :
    Nat → Place → List String → Place → Prop where
  | done {links : Nat} {start : Place} : Route disk followLast links start [] start
  | stay {links : Nat} {start goal : Place} {rest : List String}
      (directory : disk.node? start = some .directory)
      (onward : Route disk followLast links start rest goal) :
      Route disk followLast links start ("." :: rest) goal
  | outward {links : Nat} {start goal : Place} {rest : List String}
      (directory : disk.node? start = some .directory)
      (onward : Route disk followLast links start.dropLast rest goal) :
      Route disk followLast links start (".." :: rest) goal
  /-- The last step may lead to where there is nothing. -/
  | missing {links : Nat} {start : Place} {step : String}
      (directory : disk.node? start = some .directory) (inward : IsInward step)
      (absent : disk.node? (start ++ [step]) = none) :
      Route disk followLast links start [step] (start ++ [step])
  /-- A link at the last step is not followed unless this is wanted. -/
  | unfollowed {links : Nat} {start : Place} {step : String} {target : Pathname}
      (directory : disk.node? start = some .directory) (inward : IsInward step)
      (here : disk.node? (start ++ [step]) = some (.link target)) (last : followLast = false) :
      Route disk followLast links start [step] (start ++ [step])
  | link {links : Nat} {start goal : Place} {step : String} {rest : List String}
      {target : Pathname} (directory : disk.node? start = some .directory) (inward : IsInward step)
      (here : disk.node? (start ++ [step]) = some (.link target))
      (further : rest ≠ [] ∨ followLast = true)
      (onward : Route disk followLast links (if target.isAbsolute then [] else start)
        (target.steps ++ rest) goal) :
      Route disk followLast (links + 1) start (step :: rest) goal
  | entry {links : Nat} {start goal : Place} {step : String} {rest : List String} {node : Node}
      (directory : disk.node? start = some .directory) (inward : IsInward step)
      (here : disk.node? (start ++ [step]) = some node) (plain : ∀ target, node ≠ .link target)
      (onward : Route disk followLast links (start ++ [step]) rest goal) :
      Route disk followLast links start (step :: rest) goal

variable {disk : Disk} {followLast : Bool} {links : Nat} {start goal : Place}
  {steps : List String}

theorem isDirectory_iff {place : Place} :
    disk.isDirectory place = true ↔ disk.node? place = some .directory := by
  rw [isDirectory]
  split <;> simp_all

/-- Where the steps behind a link lead. -/
def behindLink (disk : Disk) (followLast : Bool) :
    Nat → Place → List String → Except OsError Place
  | 0 => fun _ _ => .error .tooManyLinks
  | links + 1 => disk.locate followLast links

theorem locate_eq_walk (disk : Disk) (followLast : Bool) (links : Nat) :
    disk.locate followLast links = disk.walk followLast (disk.behindLink followLast links) := by
  cases links with
  | zero => rfl
  | succ links => rfl

/-- A step to an entry of a directory depends on the node that is there. -/
theorem walk_inward {follow : Place → List String → Except OsError Place} {step : String}
    (directory : disk.node? start = some .directory) (inward : IsInward step)
    (rest : List String) :
    disk.walk followLast follow start (step :: rest) =
      match disk.node? (start ++ [step]) with
      | none => if rest.isEmpty then .ok (start ++ [step]) else .error .notFound
      | some (.link target) =>
          if rest.isEmpty && !followLast then .ok (start ++ [step])
          else follow (if target.isAbsolute then [] else start) (target.steps ++ rest)
      | some _ => disk.walk followLast follow (start ++ [step]) rest := by
  rewrite [walk, isDirectory_iff.2 directory, if_neg (by simp), if_neg inward.dot,
    if_neg inward.dots, if_neg (Nat.not_lt.2 inward.short)]
  rfl

theorem route_of_walk {follow : Place → List String → Except OsError Place}
    (behind : ∀ start steps, follow start steps = .ok goal →
      ∃ fewer, links = fewer + 1 ∧ Route disk followLast fewer start steps goal)
    (found : disk.walk followLast follow start steps = .ok goal) :
    Route disk followLast links start steps goal := by
  have present : ∀ {place : Place}, ¬ (!disk.isDirectory place) = true →
      disk.node? place = some .directory := by
    intro place directory
    rwa [Bool.not_eq_true', Bool.not_eq_false, isDirectory_iff] at directory
  fun_induction Disk.walk disk followLast follow start steps with
  | case1 start => exact Except.ok.inj found ▸ .done
  | case2 => contradiction
  | case3 start rest directory ih => exact .stay (present directory) (ih found)
  | case4 start rest directory dot ih => exact .outward (present directory) (ih found)
  | case5 => contradiction
  | case6 start step rest directory dot dots short absent last =>
      obtain rfl := Except.ok.inj found
      rw [List.isEmpty_iff.1 last]
      exact .missing (present directory) ⟨dot, dots, Nat.not_lt.1 short⟩ absent
  | case7 => contradiction
  | case8 start step rest directory dot dots short target here last =>
      obtain rfl := Except.ok.inj found
      rw [Bool.and_eq_true, List.isEmpty_iff, Bool.not_eq_true'] at last
      rw [last.1]
      exact .unfollowed (present directory) ⟨dot, dots, Nat.not_lt.1 short⟩ here last.2
  | case9 start step rest directory dot dots short target here last =>
      obtain ⟨fewer, rfl, onward⟩ := behind _ _ found
      refine .link (present directory) ⟨dot, dots, Nat.not_lt.1 short⟩ here ?_ onward
      rw [Bool.and_eq_true, not_and_or, List.isEmpty_iff] at last
      exact last.imp_right fun followed => by simpa using followed
  | case10 start step rest directory dot dots short node plain here ih =>
      exact .entry (present directory) ⟨dot, dots, Nat.not_lt.1 short⟩ here plain (ih found)

/-- A search succeeds if and only if there is a route. -/
theorem locate_eq_ok_iff :
    disk.locate followLast links start steps = .ok goal ↔
      Route disk followLast links start steps goal := by
  constructor
  · intro found
    induction links generalizing start steps with
    | zero =>
        refine route_of_walk ?_ found
        exact nofun
    | succ links ih => exact route_of_walk (fun start steps found => ⟨links, rfl, ih found⟩) found
  · intro route
    induction route with
    | done => rw [locate_eq_walk, walk]
    | stay directory onward ih =>
        rwa [locate_eq_walk, walk, isDirectory_iff.2 directory, if_neg (by simp), if_pos rfl,
          ← locate_eq_walk]
    | outward directory onward ih =>
        rwa [locate_eq_walk, walk, isDirectory_iff.2 directory, if_neg (by simp),
          if_neg (by decide), if_pos rfl, ← locate_eq_walk]
    | missing directory inward absent =>
        rw [locate_eq_walk, walk_inward directory inward, absent]
        rfl
    | unfollowed directory inward here last =>
        rw [locate_eq_walk, walk_inward directory inward, here, last]
        rfl
    | @link links start goal step rest target directory inward here further onward ih =>
        rw [locate_eq_walk, walk_inward directory inward, here]
        have followed : (rest.isEmpty && !followLast) = false := by
          rcases further with rest | follow
          · rw [List.isEmpty_eq_false_iff.2 rest, Bool.false_and]
          · rw [follow, Bool.not_true, Bool.and_false]
        simp only [followed, Bool.false_eq_true, if_false]
        exact ih
    | @entry links start goal step rest node directory inward here plain onward ih =>
        rw [locate_eq_walk, walk_inward directory inward, here, ← locate_eq_walk]
        cases node with
        | link target => exact absurd rfl (plain target)
        | file data mode => exact ih
        | directory => exact ih

namespace Route

/-- The steps of one route lead to one place. -/
theorem unique {other : Place} (route : Route disk followLast links start steps goal)
    (route' : Route disk followLast links start steps other) : goal = other :=
  Except.ok.inj ((locate_eq_ok_iff.2 route).symm.trans (locate_eq_ok_iff.2 route'))

/-- Behind the steps that lead to a directory, other steps lead on from there. -/
theorem append {place : Place} {outer names : List String}
    (route : Route disk true links start outer place)
    (directory : disk.node? place = some .directory) (nonempty : names ≠ [])
    (onward : ∀ links, Route disk followLast links place names goal) :
    Route disk followLast links start (outer ++ names) goal := by
  induction route with
  | done => exact onward _
  | stay here _ ih => exact .stay here (ih directory onward)
  | outward here _ ih => exact .outward here (ih directory onward)
  | missing _ _ absent => exact nomatch absent.symm.trans directory
  | unfollowed _ _ _ last => contradiction
  | link here inward target _ _ ih =>
      have later := ih directory onward
      rw [List.append_assoc] at later
      exact .link here inward target (.inl (List.append_ne_nil_of_right_ne_nil _ nonempty)) later
  | entry here inward node plain _ ih => exact .entry here inward node plain (ih directory onward)

/-- A route can be cut in two in front of any of its steps, and comes by a directory there. -/
theorem exists_cut {outer more : List String}
    (route : Route disk followLast links start (outer ++ more) goal) (nonempty : more ≠ []) :
    ∃ place, Route disk true links start outer place ∧ disk.node? place = some .directory ∧
      ∃ left, Route disk followLast left place more goal := by
  generalize whole : outer ++ more = steps at route
  induction route generalizing outer with
  | done => exact absurd (List.append_eq_nil_iff.1 whole).2 nonempty
  | stay here later ih =>
      obtain ⟨rfl, rfl⟩ | ⟨outer, rfl, rfl⟩ := List.append_eq_cons_iff.1 whole
      · exact ⟨_, .done, here, _, .stay here later⟩
      · obtain ⟨place, onward, rest⟩ := ih rfl
        exact ⟨place, .stay here onward, rest⟩
  | outward here later ih =>
      obtain ⟨rfl, rfl⟩ | ⟨outer, rfl, rfl⟩ := List.append_eq_cons_iff.1 whole
      · exact ⟨_, .done, here, _, .outward here later⟩
      · obtain ⟨place, onward, rest⟩ := ih rfl
        exact ⟨place, .outward here onward, rest⟩
  | @missing links _ _ here inward absent =>
      obtain ⟨rfl, rfl⟩ | ⟨outer, rfl, last⟩ := List.append_eq_cons_iff.1 whole
      · exact ⟨_, .done, here, links, .missing here inward absent⟩
      · exact absurd (List.append_eq_nil_iff.1 last.symm).2 nonempty
  | @unfollowed links _ _ _ here inward target last =>
      obtain ⟨rfl, rfl⟩ | ⟨outer, rfl, ends⟩ := List.append_eq_cons_iff.1 whole
      · exact ⟨_, .done, here, links, .unfollowed here inward target last⟩
      · exact absurd (List.append_eq_nil_iff.1 ends.symm).2 nonempty
  | link here inward target further later ih =>
      obtain ⟨rfl, rfl⟩ | ⟨outer, rfl, rfl⟩ := List.append_eq_cons_iff.1 whole
      · exact ⟨_, .done, here, _, .link here inward target further later⟩
      · obtain ⟨place, onward, rest⟩ := ih (List.append_assoc ..)
        exact ⟨place, .link here inward target (.inr rfl) onward, rest⟩
  | entry here inward node plain later ih =>
      obtain ⟨rfl, rfl⟩ | ⟨outer, rfl, rfl⟩ := List.append_eq_cons_iff.1 whole
      · exact ⟨_, .done, here, _, .entry here inward node plain later⟩
      · obtain ⟨place, onward, rest⟩ := ih rfl
        exact ⟨place, .entry here inward node plain onward, rest⟩

/-- Where there is nothing at the end of a route, there is a directory right in front of
it, and its last step is inward. -/
theorem exists_front (route : Route disk false links start steps goal)
    (outside : ∀ place, disk.node? place = some .directory →
      disk.node? place.dropLast = some .directory)
    (present : disk.node? start ≠ none) (absent : disk.node? goal = none) :
    ∃ outer place name, steps = outer ++ [name] ∧ goal = place ++ [name] ∧ IsInward name ∧
      Route disk true links start outer place ∧ disk.node? place = some .directory := by
  have known : ∀ {place node}, disk.node? place = some node → disk.node? place ≠ none :=
    fun here absent => nomatch here.symm.trans absent
  induction route with
  | done => exact absurd absent present
  | stay here _ ih =>
      obtain ⟨outer, place, name, rfl, rfl, inward, onward, directory⟩ := ih present absent
      exact ⟨"." :: outer, place, name, rfl, rfl, inward, .stay here onward, directory⟩
  | outward here _ ih =>
      obtain ⟨outer, place, name, rfl, rfl, inward, onward, directory⟩ :=
        ih (known (outside _ here)) absent
      exact ⟨".." :: outer, place, name, rfl, rfl, inward, .outward here onward, directory⟩
  | missing here inward => exact ⟨[], _, _, rfl, rfl, inward, .done, here⟩
  | unfollowed here inward => exact ⟨[], _, _, rfl, rfl, inward, .done, here⟩
  | @link links start goal step rest target here inward node further _ ih =>
      have start' : disk.node? (if target.isAbsolute then [] else start) = some .directory := by
        split
        next => rfl
        next => exact here
      obtain ⟨outer, place, name, split, rfl, inner, onward, directory⟩ := ih (known start') absent
      obtain ⟨rest, last, rfl⟩ :=
        (List.eq_nil_or_concat rest).resolve_left (further.resolve_right Bool.false_ne_true)
      rw [List.concat_eq_append, ← List.append_assoc] at split
      obtain ⟨rfl, same⟩ := List.append_inj' split rfl
      obtain rfl := List.singleton_inj.1 same
      exact ⟨step :: rest, place, last, by simp, rfl, inner,
        .link here inward node (.inr rfl) onward, directory⟩
  | entry here inward node plain _ ih =>
      obtain ⟨outer, place, name, rfl, rfl, inner, onward, directory⟩ := ih (known node) absent
      exact ⟨_ :: outer, place, name, rfl, rfl, inner, .entry here inward node plain onward,
        directory⟩

/-- Dots in front of a route make no difference. -/
theorem behind_dots {dots : List String} (begin : disk.node? start = some .directory)
    (only : ∀ step ∈ dots, step = ".") (route : Route disk followLast links start steps goal) :
    Route disk followLast links start (dots ++ steps) goal := by
  induction dots with
  | nil => exact route
  | cons step dots ih =>
      obtain ⟨rfl, others⟩ := List.forall_mem_cons.1 only
      exact .stay begin (ih others)

/-- Dots make no difference to steps that lead to a directory. -/
theorem of_filter_eq {other : List String} (route : Route disk true links start steps goal)
    (directory : disk.node? goal = some .directory)
    (same : other.filter (· ≠ ".") = steps.filter (· ≠ ".")) :
    Route disk true links start other goal := by
  -- Up to dots, the other steps begin as the route does.
  have split : ∀ {step : String} {rest other : List String}, step ≠ "." →
      other.filter (· ≠ ".") = (step :: rest).filter (· ≠ ".") →
        ∃ dots later, other = dots ++ step :: later ∧ (∀ step ∈ dots, step = ".") ∧
          later.filter (· ≠ ".") = rest.filter (· ≠ ".") := by
    intro step rest other plain same
    rw [List.filter_cons_of_pos (by simpa using plain), List.filter_eq_cons_iff] at same
    obtain ⟨dots, later, whole, only, -, same⟩ := same
    exact ⟨dots, later, whole, fun step member => by simpa using only step member, same⟩
  induction route generalizing other with
  | done =>
      have only : ∀ step ∈ other, step = "." := by simpa using same
      rw [← List.append_nil other]
      exact .behind_dots directory only .done
  | stay here _ ih => exact ih directory same
  | outward here _ ih =>
      obtain ⟨dots, later, rfl, only, same⟩ := split (by decide) same
      exact .behind_dots here only (.outward here (ih directory same))
  | missing _ _ absent => exact nomatch absent.symm.trans directory
  | unfollowed _ _ _ last => contradiction
  | link here inward target _ _ ih =>
      obtain ⟨dots, later, rfl, only, same⟩ := split inward.dot same
      refine .behind_dots here only (.link here inward target (.inr rfl) (ih directory ?_))
      rw [List.filter_append, List.filter_append, same]
  | entry here inward node plain _ ih =>
      obtain ⟨dots, later, rfl, only, same⟩ := split inward.dot same
      exact .behind_dots here only (.entry here inward node plain (ih directory same))

end Route

end Disk

end ProviderMigration.Storage
