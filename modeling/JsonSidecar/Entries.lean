/-
Module: JsonSidecar.Entries
Purpose: Entries of a map, kept in the byte order of their keys with one entry for each key.  A later
  entry takes the place of an earlier one with the same key.
Main exports: Entries.insert, Entries.ofList, Entries.inOrder
-/
import JsonSidecar.Bytes

namespace JsonSidecar.Entries

variable {α : Type}

/-- Put an entry in its place. -/
def insert (key : Bytes) (value : α) : List (Bytes × α) → List (Bytes × α)
  | [] => [(key, value)]
  | (key', value') :: rest =>
    if key < key' then (key, value) :: (key', value') :: rest
    else if key = key' then (key, value) :: rest
    else (key', value') :: insert key value rest

/-- The entries that remain when some are put in one after another. -/
def ofList (entries : List (Bytes × α)) : List (Bytes × α) :=
  entries.foldl (fun sorted entry => insert entry.1 entry.2 sorted) []

/-- Parts that belong to keys, in the byte order of the keys. -/
def inOrder (keys : List Bytes) (parts : List α) : List α := (ofList (keys.zip parts)).map Prod.snd

end JsonSidecar.Entries
