import HclOverlay.Path.Basic

/-!
# Kinds of files

What a file is for can be told from its name: overlays end in `.kf.hcl`, and module files have the
extension `tf`. The two never coincide.
-/

namespace HclOverlay.Path

/-- The ending of overlay files. -/
def overlaySuffix : String := ".kf.hcl"

/-- The extension of module files. -/
def moduleExtension : String := "tf"

/-- Whether a text ends in another. -/
def endsWithText (text ending : String) : Bool := ending.toList.isSuffixOf text.toList

/-- Whether a path names an overlay. -/
def isOverlay (p : Path) : Bool := p.fileName?.any (endsWithText · overlaySuffix)

/-- Whether a path has the extension of module files. -/
def hasModuleExtension (p : Path) : Bool := p.extension? == some moduleExtension

/-- Whether a path names a module file. -/
def isModuleFile (p : Path) : Bool := p.hasModuleExtension && !p.isOverlay

/-- Whether a path names a file that is copied as it is. -/
def isSupportFile (p : Path) : Bool := !p.isModuleFile && !p.isOverlay

end HclOverlay.Path
