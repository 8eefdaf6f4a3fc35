import Requalify.Policy.Reading
import Requalify.Toml.Reading

/-! The settings of a project. What is left out keeps its standard value. -/

namespace Requalify

/-- Which files of a project are sources. -/
structure FileSettings where
  /-- Extensions of sources, without the dot. -/
  extensions : List String
  /-- Patterns of paths that are left alone. -/
  excluded : List String
  deriving DecidableEq

def FileSettings.standard : FileSettings where
  extensions := ["h", "hh", "hpp", "hxx", "inl", "c", "cc", "cpp", "cxx"]
  excluded := []

structure CatalogSettings where
  /-- Headers outside the sources whose names are catalogued too. -/
  extraHeaders : List String
  /-- Extensions of files whose using-statements reach other files. -/
  headerExtensions : List String
  deriving DecidableEq

def CatalogSettings.standard : CatalogSettings where
  extraHeaders := []
  headerExtensions := ["h", "hh", "hpp", "hxx", "inl"]

structure Configuration where
  policy : Policy
  files : FileSettings
  catalog : CatalogSettings
  deriving DecidableEq

def Configuration.standard : Configuration where
  policy := Policy.standard
  files := FileSettings.standard
  catalog := CatalogSettings.standard

instance : Inhabited Configuration := ⟨Configuration.standard⟩

def FileSettings.ofData? (data : Data) : Option FileSettings :=
  match data.fields? false ["extensions", "exclude"] with
  | some [extensions, excluded] => do
      return ⟨← Data.optional? extensions standard.extensions Data.texts?,
        ← Data.optional? excluded standard.excluded Data.texts?⟩
  | _ => none

def CatalogSettings.ofData? (data : Data) : Option CatalogSettings :=
  match data.fields? false ["extra_headers", "header_extensions"] with
  | some [headers, extensions] => do
      return ⟨← Data.optional? headers standard.extraHeaders Data.texts?,
        ← Data.optional? extensions standard.headerExtensions Data.texts?⟩
  | _ => none

def Configuration.ofData? (data : Data) : Option Configuration :=
  match data.fields? false ["policy", "files", "index"] with
  | some [policy, files, catalog] => do
      return ⟨← Data.optional? policy standard.policy (Policy.ofData? false),
        ← Data.optional? files standard.files FileSettings.ofData?,
        ← Data.optional? catalog standard.catalog CatalogSettings.ofData?⟩
  | _ => none

/-- Read the settings from a TOML document; keys that are not known do not count. -/
def Configuration.ofToml? (text : String) : Option Configuration :=
  (Toml.read? text).bind ofData?

end Requalify
