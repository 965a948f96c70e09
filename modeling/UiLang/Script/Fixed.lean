/-!
# Fixed parts of the script

Texts that do not depend on the program.

## Main definitions

* `Script.runtime`, `Script.fetchHelper`
* `Script.dynamicClasses`, `Script.textWatchers`, `Script.conditionals`, `Script.inputBindings`,
  `Script.loops`: what is set up once the document is loaded
-/

namespace UiLang.Script

/-- The object that runs a page: state behind a proxy, watchers, and batched updates of the
document.  It stands at the top of every script. -/
def runtime : String :=
  String.intercalate "\n" [
    "const Frobo = \x7b",
    "  state: \x7b\x7d,",
    "  dependencies: \x7b\x7d,",
    "  domBindings: [],",
    "  updateQueue: new Set(),",
    "  updateScheduled: false,",
    "  watchers: \x7b\x7d,",
    "  updateHooks: [],",
    "  computedKeys: [],",
    "",
    "  createState(initialState) \x7b",
    "    const self = this;",
    "    this.state = new Proxy(initialState, \x7b",
    "      set: (target, property, value) => \x7b",
    "        const oldValue = target[property];",
    "        target[property] = value;",
    "        self.scheduleUpdate(property);",
    "        if (self.watchers[property]) \x7b",
    "          self.watchers[property].forEach(callback => callback(value, oldValue));",
    "        \x7d",
    "        return true;",
    "      \x7d",
    "    \x7d);",
    "    return this.state;",
    "  \x7d,",
    "",
    "  addWatcher(stateKey, callback) \x7b",
    "    if (!this.watchers[stateKey]) \x7b",
    "      this.watchers[stateKey] = [];",
    "    \x7d",
    "    this.watchers[stateKey].push(callback);",
    "  \x7d,",
    "",
    "  onUpdate(callback) \x7b",
    "    this.updateHooks.push(callback);",
    "  \x7d,",
    "",
    "  watch(stateKey, element) \x7b",
    "    if (!this.dependencies[stateKey]) \x7b",
    "      this.dependencies[stateKey] = [];",
    "    \x7d",
    "    this.dependencies[stateKey].push(element);",
    "  \x7d,",
    "",
    "  resolve(path) \x7b",
    "    return path.split('.').reduce((value, key) => value == null ? undefined : value[key], this.state);",
    "  \x7d,",
    "",
    "  escapeHTML(text) \x7b",
    "    const map = \x7b '&': '&amp;', '<': '&lt;', '>': '&gt;', '\"': '&quot;', \"'\": '&#039;' \x7d;",
    "    return String(text).replace(/[&<>\"']/g, char => map[char]);",
    "  \x7d,",
    "",
    "  scheduleUpdate(stateKey) \x7b",
    "    const self = this;",
    "    this.updateQueue.add(stateKey);",
    "    if (!this.updateScheduled) \x7b",
    "      this.updateScheduled = true;",
    "      requestAnimationFrame(() => \x7b",
    "        self.flushUpdates();",
    "      \x7d);",
    "    \x7d",
    "  \x7d,",
    "",
    "  flushUpdates() \x7b",
    "    const self = this;",
    "    this.updateQueue.forEach(key => \x7b",
    "      self.updateDOM(key);",
    "    \x7d);",
    "    this.computedKeys.forEach(key => \x7b",
    "      if (!self.updateQueue.has(key)) self.updateDOM(key);",
    "    \x7d);",
    "    this.updateQueue.clear();",
    "    this.updateScheduled = false;",
    "    this.updateHooks.forEach(hook => hook());",
    "  \x7d,",
    "",
    "  updateDOM(stateKey) \x7b",
    "    const self = this;",
    "    const elements = this.dependencies[stateKey];",
    "    if (elements) \x7b",
    "      elements.forEach(element => \x7b",
    "        const template = element.getAttribute('data-template');",
    "        if (template) \x7b",
    "          let result = template;",
    "          const vars = element.getAttribute('data-vars');",
    "          if (vars) \x7b",
    "            vars.split(',').forEach(path => \x7b",
    "              result = result.split('\x7b' + path + '\x7d').join(String(self.resolve(path)));",
    "            \x7d);",
    "          \x7d",
    "          element.textContent = result;",
    "        \x7d",
    "      \x7d);",
    "    \x7d",
    "    this.domBindings",
    "      .filter(binding => binding.stateKey === stateKey)",
    "      .forEach(binding => \x7b",
    "        if (self.state[stateKey] !== undefined) \x7b",
    "          if (binding.property === 'textContent') \x7b",
    "            binding.element.textContent = String(self.state[stateKey]);",
    "          \x7d else if (binding.property === 'value') \x7b",
    "            binding.element.value = String(self.state[stateKey]);",
    "          \x7d else \x7b",
    "            binding.element.setAttribute(binding.property, String(self.state[stateKey]));",
    "          \x7d",
    "        \x7d",
    "      \x7d);",
    "",
    "    // Re-evaluate conditionals",
    "    if (this.conditionals) \x7b",
    "      this.conditionals.forEach(evaluate => evaluate());",
    "    \x7d",
    "",
    "    // Re-render loops",
    "    if (this.renderLoops) \x7b",
    "      this.renderLoops();",
    "    \x7d",
    "  \x7d,",
    "",
    "  bind(elementId, stateKey, property = 'textContent') \x7b",
    "    const element = document.getElementById(elementId);",
    "    if (element) \x7b",
    "      this.domBindings.push(\x7b element, property, stateKey \x7d);",
    "      this.updateDOM(stateKey);",
    "    \x7d",
    "  \x7d,",
    "",
    "  on(elementId, eventType, handler) \x7b",
    "    const element = document.getElementById(elementId);",
    "    if (element) \x7b",
    "      element.addEventListener(eventType, handler);",
    "    \x7d",
    "  \x7d,",
    "",
    "  onClick(elementId, handler) \x7b",
    "    this.on(elementId, 'click', handler);",
    "  \x7d,",
    "",
    "  onChange(elementId, handler) \x7b",
    "    const element = document.getElementById(elementId);",
    "    if (element && (element instanceof HTMLInputElement || element instanceof HTMLTextAreaElement)) \x7b",
    "      const updateHandler = (event) => \x7b",
    "        handler(event.target.value);",
    "      \x7d;",
    "      element.addEventListener('change', updateHandler);",
    "      element.addEventListener('input', updateHandler);",
    "    \x7d",
    "  \x7d",
    "\x7d;"]

/-- Loads data into state; failures end up in the error key.  Written once if any component
fetches. -/
def fetchHelper : String :=
  String.intercalate "\n" [
    "async function froboFetch(url, intoVar, loadingVar, errorVar) \x7b",
    "  if (loadingVar) state[loadingVar] = true;",
    "  if (errorVar) state[errorVar] = null;",
    "  try \x7b",
    "    const response = await fetch(url);",
    "    const data = await response.json();",
    "    if (intoVar) state[intoVar] = data;",
    "    if (loadingVar) state[loadingVar] = false;",
    "    return data;",
    "  \x7d catch (error) \x7b",
    "    if (errorVar) state[errorVar] = error.message;",
    "    if (loadingVar) state[loadingVar] = false;",
    "    console.error('Fetch error:', error);",
    "  \x7d",
    "\x7d"]

/-- Toggles the classes of elements with class conditions. -/
def dynamicClasses : String :=
  String.intercalate "\n" [
    "  // Setup dynamic classes",
    "  document.querySelectorAll('[data-dynamic-class]').forEach(el => \x7b",
    "    const classMap = JSON.parse(el.getAttribute('data-dynamic-class'));",
    "    const updateClasses = () => \x7b",
    "      Object.entries(classMap).forEach(([className, condition]) => \x7b",
    "        if (Frobo.resolve(condition)) \x7b",
    "          el.classList.add(className);",
    "        \x7d else \x7b",
    "          el.classList.remove(className);",
    "        \x7d",
    "      \x7d);",
    "    \x7d;",
    "    updateClasses();",
    "    Object.values(classMap).forEach(condition => \x7b",
    "      Frobo.addWatcher(condition.split('.')[0], updateClasses);",
    "    \x7d);",
    "  \x7d);",
    ""]

/-- Renders text templates again when one of their names changes. -/
def textWatchers : String :=
  String.intercalate "\n" [
    "  // Setup text element watchers",
    "  document.querySelectorAll('[data-vars]').forEach(el => \x7b",
    "    const vars = el.getAttribute('data-vars').split(',');",
    "    const roots = [...new Set(vars.map(path => path.split('.')[0]))];",
    "    roots.forEach(varName => \x7b",
    "      Frobo.watch(varName, el);",
    "    \x7d);",
    "    // Initial update",
    "    if (roots.length > 0) Frobo.updateDOM(roots[0]);",
    "  \x7d);",
    ""]

/-- Shows the first branch of each conditional that holds, or its last one. -/
def conditionals : String :=
  String.intercalate "\n" [
    "  // Setup conditional rendering",
    "  Frobo.setupConditionals = function() \x7b",
    "    document.querySelectorAll('[data-condition][id$=\"-if\"]').forEach(ifBlock => \x7b",
    "      const condId = ifBlock.id.slice(0, -'-if'.length);",
    "      const elseIfBlocks = [];",
    "      for (let i = 0; ; i++) \x7b",
    "        const block = document.getElementById(condId + '-elseif-' + i);",
    "        if (!block) break;",
    "        elseIfBlocks.push(block);",
    "      \x7d",
    "      const elseBlock = document.getElementById(condId + '-else');",
    "",
    "      const evaluate = () => \x7b",
    "        try \x7b",
    "          let shown = null;",
    "          if (eval(ifBlock.getAttribute('data-condition'))) \x7b",
    "            shown = ifBlock;",
    "          \x7d else \x7b",
    "            for (let j = 0; j < elseIfBlocks.length; j++) \x7b",
    "              if (eval(elseIfBlocks[j].getAttribute('data-condition'))) \x7b",
    "                shown = elseIfBlocks[j];",
    "                break;",
    "              \x7d",
    "            \x7d",
    "          \x7d",
    "          // If no conditions matched, show else block",
    "          if (!shown && elseBlock) shown = elseBlock;",
    "          [ifBlock, ...elseIfBlocks, elseBlock].forEach(block => \x7b",
    "            if (block) block.style.display = block === shown ? 'block' : 'none';",
    "          \x7d);",
    "        \x7d catch(e) \x7b console.error('Condition error:', e); \x7d",
    "      \x7d;",
    "",
    "      evaluate();",
    "      Frobo.conditionals = Frobo.conditionals || [];",
    "      Frobo.conditionals.push(evaluate);",
    "    \x7d);",
    "  \x7d;",
    "",
    "  Frobo.setupConditionals();",
    ""]

/-- Binds inputs and state both ways. -/
def inputBindings : String :=
  String.intercalate "\n" [
    "  // Setup input and textarea binding",
    "  document.querySelectorAll('input[data-bind], textarea[data-bind]').forEach(input => \x7b",
    "    const stateKey = input.getAttribute('data-bind');",
    "    const path = stateKey.split('.');",
    "    const rootKey = path[0];",
    "    const onChange = input.getAttribute('data-onchange');",
    "",
    "    // A nested write does not pass through the proxy, so the root is reassigned to queue it",
    "    const write = (value) => \x7b",
    "      if (path.length === 1) \x7b",
    "        state[rootKey] = value;",
    "        return;",
    "      \x7d",
    "      const parent = Frobo.resolve(path.slice(0, -1).join('.'));",
    "      if (parent == null) return;",
    "      parent[path[path.length - 1]] = value;",
    "      state[rootKey] = state[rootKey];",
    "    \x7d;",
    "",
    "    // Set initial value",
    "    if (Frobo.resolve(stateKey) !== undefined) \x7b",
    "      input.value = Frobo.resolve(stateKey);",
    "    \x7d",
    "",
    "    // Listen for changes",
    "    input.addEventListener('input', (e) => \x7b",
    "      write(e.target.value);",
    "      if (onChange && typeof window[onChange] === 'function') \x7b",
    "        window[onChange](e.target.value);",
    "      \x7d",
    "    \x7d);",
    "",
    "    // Update input when state changes",
    "    const originalUpdate = Frobo.updateDOM;",
    "    Frobo.updateDOM = function(key) \x7b",
    "      originalUpdate.call(this, key);",
    "      const current = Frobo.resolve(stateKey);",
    "      if (key === rootKey && current !== undefined && input.value !== String(current)) \x7b",
    "        input.value = current;",
    "      \x7d",
    "    \x7d;",
    "  \x7d);",
    ""]

/-- Fills loop containers with one copy of their template for each item. -/
def loops : String :=
  String.intercalate "\n" [
    "  // Setup loop rendering",
    "  Frobo.renderLoops = function() \x7b",
    "    document.querySelectorAll('[data-loop]').forEach(container => \x7b",
    "      const arrayName = container.getAttribute('data-loop');",
    "      const template = document.getElementById(container.id + '-template');",
    "      const array = Frobo.resolve(arrayName);",
    "",
    "      if (!template || !Array.isArray(array)) return;",
    "",
    "      container.innerHTML = '';",
    "      array.forEach((item, index) => \x7b",
    "        const div = document.createElement('div');",
    "        div.appendChild(template.content.cloneNode(true));",
    "        let html = div.innerHTML.split('\x7b\x7bLOOP_INDEX\x7d\x7d').join(String(index));",
    "        html = html.replace(/\\\x7b\\\x7bLOOP_ITEM(?:\\.([\\w$.]+))?\\\x7d\\\x7d/g, (match, field) => \x7b",
    "          const value = field",
    "            ? field.split('.').reduce((v, key) => v == null ? undefined : v[key], item)",
    "            : item;",
    "          return Frobo.escapeHTML(value);",
    "        \x7d);",
    "        container.innerHTML += html;",
    "      \x7d);",
    "    \x7d);",
    "  \x7d;",
    "",
    "  Frobo.renderLoops();",
    ""]

end UiLang.Script
