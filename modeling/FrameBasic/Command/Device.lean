/-!
# Input devices

Programs name keys by scancode and mouse buttons by number; the host names keys by text and numbers
its buttons in another order.

## Main definitions

* `Device` — the two devices.
* `keyName?` — the host's name of a scancode.
* `mouseButton?` — the host's number of a mouse button.
-/

namespace FrameBasic

/-- A device whose codes the host numbers or names in its own way. -/
inductive Device where
  | keyboard
  | mouse
deriving DecidableEq, Repr, Inhabited

/-- The host's names of the scancodes. -/
def keyNames : List (Nat × String) :=
  [ (1, "Escape"), (2, "Digit1"), (3, "Digit2"), (4, "Digit3"), (5, "Digit4"), (6, "Digit5"),
    (7, "Digit6"), (8, "Digit7"), (9, "Digit8"), (10, "Digit9"), (11, "Digit0"), (12, "Minus"),
    (13, "Equal"), (14, "Backspace"), (15, "Tab"), (16, "KeyQ"), (17, "KeyW"), (18, "KeyE"),
    (19, "KeyR"), (20, "KeyT"), (21, "KeyY"), (22, "KeyU"), (23, "KeyI"), (24, "KeyO"),
    (25, "KeyP"), (26, "BracketLeft"), (27, "BracketRight"), (28, "Enter"), (29, "ControlLeft"),
    (30, "KeyA"), (31, "KeyS"), (32, "KeyD"), (33, "KeyF"), (34, "KeyG"), (35, "KeyH"),
    (36, "KeyJ"), (37, "KeyK"), (38, "KeyL"), (39, "Semicolon"), (40, "Quote"),
    (41, "Backquote"), (42, "ShiftLeft"), (43, "Backslash"), (44, "KeyZ"), (45, "KeyX"),
    (46, "KeyC"), (47, "KeyV"), (48, "KeyB"), (49, "KeyN"), (50, "KeyM"), (51, "Comma"),
    (52, "Period"), (53, "Slash"), (54, "ShiftRight"), (55, "NumpadMultiply"), (56, "AltLeft"),
    (57, "Space"), (58, "CapsLock"), (59, "F1"), (60, "F2"), (61, "F3"), (62, "F4"), (63, "F5"),
    (64, "F6"), (65, "F7"), (66, "F8"), (67, "F9"), (68, "F10"), (71, "Numpad7"),
    (72, "Numpad8"), (73, "Numpad9"), (74, "NumpadSubtract"), (75, "Numpad4"), (76, "Numpad5"),
    (77, "Numpad6"), (78, "NumpadAdd"), (79, "Numpad1"), (80, "Numpad2"), (81, "Numpad3"),
    (82, "Numpad0"), (83, "NumpadDecimal"), (87, "F11"), (88, "F12"), (156, "NumpadEnter"),
    (157, "ControlRight"), (181, "NumpadDivide"), (184, "AltRight"), (199, "Home"),
    (200, "ArrowUp"), (201, "PageUp"), (203, "ArrowLeft"), (205, "ArrowRight"), (207, "End"),
    (208, "ArrowDown"), (209, "PageDown"), (210, "Insert"), (211, "Delete") ]

/-- The host's name of a scancode. -/
def keyName? (code : Int) : Option String :=
  (keyNames.find? fun entry => (entry.1 : Int) == code).map Prod.snd

/-- The host's number of a mouse button: left, right and middle are one, two and three. -/
def mouseButton? (code : Int) : Option Int :=
  if code = 1 then some 0
  else if code = 2 then some 2
  else if code = 3 then some 1
  else none

end FrameBasic
