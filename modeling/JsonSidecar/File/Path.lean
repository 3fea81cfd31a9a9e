/-
Module: JsonSidecar.File.Path
Purpose: Where paths lead.  A path is followed part by part, from the directory that holds everything.  Slashes in a row,
  a slash at the end and the parts `.` and `..` make different paths of one place.
Main exports: Place, Route, Route.ofPath, Route.place, Route.around, Route.parents, Ending, placeOf
-/

namespace JsonSidecar

/-- A place among the directories: the names on the way to it, and its own.  The directory that holds everything has
    none. -/
abbrev Place := List String

/-- A path as it is followed: the parts in front of its last slash, and what comes behind it. -/
structure Route where
  front : List String
  last : String
deriving DecidableEq, Repr

/-- How a path ends: with a name, with slashes behind a name, or with a part that is no name. -/
inductive Ending where
  | name
  | slash
  | dots
deriving DecidableEq, Repr

namespace Route

/-- The route when the path goes on by a character. -/
def push (route : Route) (c : Char) : Route :=
  if c = '/' then ⟨route.front ++ [route.last], ""⟩ else ⟨route.front, route.last.push c⟩

/-- The route of a path. -/
def ofPath (path : String) : Route := path.toList.foldl push ⟨[], ""⟩

/-- Where a part leads from a place.  There is nothing above the directory that holds everything. -/
def enter (place : Place) (part : String) : Place :=
  if part = "" ∨ part = "." then place else if part = ".." then place.dropLast else place ++ [part]

/-- Where parts lead from a place. -/
def walk (place : Place) (parts : List String) : Place := parts.foldl enter place

/-- The places that are reached on the way. -/
def passed : Place → List String → List Place
  | _, [] => []
  | place, part :: parts => enter place part :: passed (enter place part) parts

/-- Where a route leads. -/
def place (route : Route) : Place := enter (walk [] route.front) route.last

/-- The places that a route passes, all of which have to be directories. -/
def around (route : Route) : List Place := passed [] route.front

/-- Whether a part leads anywhere. -/
def leads (part : String) : Bool := part ≠ "" && part ≠ "."

/-- The parts that lead anywhere. -/
def names (route : Route) : List String := (route.front ++ [route.last]).filter leads

/-- The route without the slashes at its end. -/
def trimmed (route : Route) : Route := ⟨route.names.dropLast, route.names.getLast?.getD ""⟩

/-- The routes of the directories to be made for some names, outermost first. -/
def beginnings : List String → List String → List Route
  | _, [] => []
  | front, name :: names => ⟨front, name⟩ :: beginnings (front ++ [name]) names

/-- The directories around the end of a route, outermost first. -/
def parents (route : Route) : List Route := beginnings [] route.names.dropLast

/-- How the path of a route ends. -/
def ending (route : Route) : Ending :=
  match ((route.front ++ [route.last]).filter fun part => part ≠ "").getLast? with
  | none => .dots
  | some part => if part = "." || part = ".." then .dots else if route.last = "" then .slash else .name

end Route

/-- Where a path leads. -/
def placeOf (path : String) : Place := (Route.ofPath path).place

end JsonSidecar
